import WordMachine.Proofs.CommandLine.Count
import WordMachine.Proofs.CommandLine.Scanning

/-!
# Which commands are accepted, and what is read from each

Flags first, then operands, and the first fault ends the reading. The faults of a flag are `Wrong`
and those of the operands `OperandFault`, each with its complaint and with what had been read when
it was met. What the flags settle is `Reflects`: the verbosity counts the `V`s in a machine word,
the count shown is that of the last `n`, and the list is asked for if there is an `l`.

`Reflects` is the invariant of the loop over the flags. One fine flag carries it from the flags
seen to one more (`takeFlags_cons_of_fine`), hence a run of them does (`takeFlags_append_of_fine`),
and the flags of a command are such a run up to their end or up to the first one that is wrong
(`fine_or_wrong`). `parse_reading` puts this together with the operands into the four ways in which
a reading ends; **every statement about accepted and refused commands is read off those four**.
-/

set_option autoImplicit false

namespace WordMachine

/-- A flag that can be taken. -/
inductive Flag.Fine : Flag → Prop
  | verbose : Fine .verbose
  | list : Fine .list
  | count {value : Text} {n : Nat} : Options.Counts value n → Fine (.count value)

/-- A flag that cannot be taken, and the complaint about it. -/
inductive Flag.Wrong : Flag → Complaint → Prop
  | unknown {letter : UInt8} : Wrong (.unknown letter) (.unknownFlag letter)
  | missing : Wrong .missingCount .missingCount
  | count {value : Text} :
      (∀ n, ¬Options.Counts value n) → Wrong (.count value) (.invalidCount value)

theorem Flag.Wrong.not_fine {f : Flag} {c : Complaint} (h : f.Wrong c) : ¬f.Fine := by
  intro hf
  cases h with
  | unknown => cases hf
  | missing => cases hf
  | count hn =>
    cases hf with
    | count hc => exact hn _ hc

/-- Flags are fine up to their end, or up to the first one that is wrong. -/
theorem Flag.fine_or_wrong (flags : List Flag) :
    (∀ f ∈ flags, f.Fine) ∨
      ∃ good bad rest c, flags = good ++ bad :: rest ∧ (∀ f ∈ good, f.Fine) ∧ bad.Wrong c := by
  induction flags with
  | nil => exact Or.inl fun f hf => absurd hf List.not_mem_nil
  | cons first flags ih =>
    have hfirst : first.Fine ∨ ∃ c, first.Wrong c := by
      cases first with
      | verbose => exact Or.inl .verbose
      | list => exact Or.inl .list
      | unknown letter => exact Or.inr ⟨_, .unknown⟩
      | missingCount => exact Or.inr ⟨_, .missing⟩
      | count value =>
        cases hr : Options.readCount? value with
        | some n => exact Or.inl (.count (Options.readCount?_eq_some_iff.mp hr))
        | none =>
          refine Or.inr ⟨_, .count fun n hn => ?_⟩
          rw [Options.readCount?_eq_some_iff.mpr hn] at hr
          cases hr
    rcases hfirst with hf | ⟨c, hw⟩
    · rcases ih with hall | ⟨good, bad, rest, c, rfl, hgood, hbad⟩
      · exact Or.inl (List.forall_mem_cons.mpr ⟨hf, hall⟩)
      · exact Or.inr ⟨first :: good, bad, rest, c, rfl, List.forall_mem_cons.mpr ⟨hf, hgood⟩, hbad⟩
    · exact Or.inr ⟨[], first, flags, c, rfl, fun f hf => absurd hf List.not_mem_nil, hw⟩

namespace Options

/-- The count of the last `n` among some flags; the usual one if there is none. -/
def CountsLast (flags : List Flag) (n : Nat) : Prop :=
  (∃ before value after, flags = before ++ .count value :: after ∧ Counts value n ∧
    ∀ other, Flag.count other ∉ after) ∨
  ((∀ other, Flag.count other ∉ flags) ∧ n = defaultShowCount)

/-- Options that hold what some flags ask for. -/
structure Reflects (o : Options) (flags : List Flag) : Prop where
  verbosity : o.verbosity.toNat = flags.count .verbose % 0x100000000
  showCount : CountsLast flags o.showCount
  list : o.list = true ↔ Flag.list ∈ flags

/-- What can be wrong with operands: what was read before it was noticed, the name and the numbers,
and the complaint. -/
inductive OperandFault : List Text → Text → List Binary64 → Complaint → Prop
  | noProgram : OperandFault [] [] [] .noProgram
  | unknownProgram {name : Text} {texts : List Text} :
      (∀ d : Demo, d.name ≠ name) → OperandFault (name :: texts) name [] (.unknownProgram name)
  | notANumber {d : Demo} {before after : List Text} {refused : Text} {numbers : List Binary64} :
      before.map Binary64.read? = numbers.map some → Binary64.read? refused = none →
      OperandFault (d.name :: (before ++ refused :: after)) d.name numbers (.notANumber refused)
  | wrongArity {d : Demo} {texts : List Text} {numbers : List Binary64} :
      texts.map Binary64.read? = numbers.map some → numbers.length ≠ d.parameterCount →
      OperandFault (d.name :: texts) d.name numbers (.wrongArity d numbers.length)

/-- The four ways in which a reading ends. -/
inductive Reading (flags : List Flag) (operands : List Text) : Options → Option Complaint → Prop
  | listing {o : Options} :
      (∀ f ∈ flags, f.Fine) → Flag.list ∈ flags → o.Reflects flags → o.program = [] →
      o.numbers = [] → Reading flags operands o none
  | demo {o : Options} {d : Demo} {texts : List Text} :
      (∀ f ∈ flags, f.Fine) → Flag.list ∉ flags → o.Reflects flags → operands = d.name :: texts →
      o.program = d.name → texts.map Binary64.read? = o.numbers.map some →
      o.numbers.length = d.parameterCount → Reading flags operands o none
  | wrongFlag {o : Options} {good rest : List Flag} {bad : Flag} {c : Complaint} :
      flags = good ++ bad :: rest → (∀ f ∈ good, f.Fine) → bad.Wrong c → o.Reflects good →
      o.program = [] → o.numbers = [] → Reading flags operands o (some c)
  | wrongOperands {o : Options} {c : Complaint} :
      (∀ f ∈ flags, f.Fine) → Flag.list ∉ flags → o.Reflects flags →
      OperandFault operands o.program o.numbers c → Reading flags operands o (some c)

/-! ## Taking flags -/

theorem CountsLast.append_count {flags : List Flag} {value : Text} {n : Nat}
    (h : Counts value n) : CountsLast (flags ++ [.count value]) n :=
  Or.inl ⟨flags, value, [], rfl, h, fun _ => List.not_mem_nil⟩

theorem CountsLast.append_other {flags : List Flag} {f : Flag} {n : Nat}
    (hf : ∀ other, f ≠ .count other) (h : CountsLast flags n) : CountsLast (flags ++ [f]) n := by
  have hnot : ∀ {l : List Flag} {other : Text}, Flag.count other ∉ l →
      Flag.count other ∉ l ++ [f] := by
    intro l other hl hmem
    rcases List.mem_append.mp hmem with hm | hm
    · exact hl hm
    · exact hf other (List.mem_singleton.mp hm).symm
  rcases h with ⟨before, value, after, rfl, hc, hafter⟩ | ⟨hnone, rfl⟩
  · exact Or.inl ⟨before, value, after ++ [f], by simp, hc, fun other => hnot (hafter other)⟩
  · exact Or.inr ⟨fun other => hnot (hnone other), rfl⟩

theorem reflects_nil : Reflects {} [] where
  verbosity := rfl
  showCount := Or.inr ⟨fun _ => List.not_mem_nil, rfl⟩
  list := by simp

theorem Reflects.withOperands {o : Options} {flags : List Flag} (h : o.Reflects flags)
    (name : Text) (numbers : List Binary64) :
    Reflects { o with program := name, numbers := numbers } flags :=
  ⟨h.verbosity, h.showCount, h.list⟩

/-- The step of the loop: a fine flag is taken, and the options then reflect it too. -/
theorem takeFlags_cons_of_fine {o : Options} {seen : List Flag} {f : Flag} (h : o.Reflects seen)
    (hf : f.Fine) :
    ∃ o', Reflects o' (seen ++ [f]) ∧ o'.program = o.program ∧ o'.numbers = o.numbers ∧
      ∀ rest, o.takeFlags (f :: rest) = o'.takeFlags rest := by
  cases hf with
  | verbose =>
    refine ⟨{ o with verbosity := o.verbosity + 1 }, ⟨?_, ?_, ?_⟩, rfl, rfl, fun rest => rfl⟩
    · -- the verbosity is a machine word, and so the count is taken modulo its size at every step
      rw [UInt32.toNat_add, h.verbosity, List.count_append]
      change (_ + 1) % 0x100000000 = (_ + 1) % 0x100000000
      omega
    · exact h.showCount.append_other fun other hc => by cases hc
    · simpa using h.list
  | list =>
    refine ⟨{ o with list := true }, ⟨?_, ?_, ?_⟩, rfl, rfl, fun rest => rfl⟩
    · rw [List.count_append]
      exact h.verbosity
    · exact h.showCount.append_other fun other hc => by cases hc
    · simp
  | @count value n hc =>
    -- the new count is the last one, whatever was counted before
    refine ⟨{ o with showCount := n }, ⟨?_, .append_count hc, ?_⟩, rfl, rfl, fun rest => ?_⟩
    · rw [List.count_append]
      exact h.verbosity
    · simpa using h.list
    · rw [takeFlags, readCount?_eq_some_iff.mpr hc]

theorem takeFlags_append_of_fine {o : Options} {seen flags : List Flag} (h : o.Reflects seen)
    (hf : ∀ f ∈ flags, f.Fine) :
    ∃ o', Reflects o' (seen ++ flags) ∧ o'.program = o.program ∧ o'.numbers = o.numbers ∧
      ∀ rest, o.takeFlags (flags ++ rest) = o'.takeFlags rest := by
  induction flags generalizing o seen with
  | nil => exact ⟨o, by rw [List.append_nil]; exact h, rfl, rfl, fun rest => rfl⟩
  | cons f flags ih =>
    obtain ⟨hfirst, hrest⟩ := List.forall_mem_cons.mp hf
    obtain ⟨o₁, h₁, hp₁, hn₁, he₁⟩ := takeFlags_cons_of_fine h hfirst
    obtain ⟨o₂, h₂, hp₂, hn₂, he₂⟩ := ih h₁ hrest
    refine ⟨o₂, ?_, hp₂.trans hp₁, hn₂.trans hn₁, fun rest => ?_⟩
    · rw [List.append_assoc] at h₂
      exact h₂
    · rw [List.cons_append, he₁, he₂]

theorem takeFlags_cons_of_wrong {f : Flag} {c : Complaint} (h : f.Wrong c) (o : Options)
    (rest : List Flag) : o.takeFlags (f :: rest) = (o, some c) := by
  cases h with
  | unknown => rfl
  | missing => rfl
  | @count value hn =>
    cases hr : readCount? value with
    | none => rw [takeFlags, hr]
    | some n => exact absurd (readCount?_eq_some_iff.mp hr) (hn n)

/-! ## Taking operands -/

theorem readNumbers_cases (texts : List Text) :
    (∃ numbers, texts.map Binary64.read? = numbers.map some ∧
      readNumbers texts = (numbers, none)) ∨
    ∃ before refused after numbers, texts = before ++ refused :: after ∧
      before.map Binary64.read? = numbers.map some ∧ Binary64.read? refused = none ∧
      readNumbers texts = (numbers, some refused) := by
  induction texts with
  | nil => exact Or.inl ⟨[], rfl, rfl⟩
  | cons t texts ih =>
    cases hr : Binary64.read? t with
    | none => exact Or.inr ⟨[], t, texts, [], rfl, rfl, hr, by rw [readNumbers, hr]⟩
    | some x =>
      rcases ih with ⟨numbers, hmap, he⟩ | ⟨before, refused, after, numbers, rfl, hmap, hno, he⟩
      · refine Or.inl ⟨x :: numbers, ?_, ?_⟩
        · rw [List.map_cons, List.map_cons, hr, hmap]
        · rw [readNumbers, hr, he]
      · refine Or.inr ⟨t :: before, refused, after, x :: numbers, rfl, ?_, hno, ?_⟩
        · rw [List.map_cons, List.map_cons, hr, hmap]
        · rw [readNumbers, hr, he]

theorem takeOperands_cases {o : Options} (hp : o.program = []) (hn : o.numbers = [])
    (operands : List Text) :
    (∃ d texts numbers, operands = Demo.name d :: texts ∧
      texts.map Binary64.read? = numbers.map some ∧ numbers.length = d.parameterCount ∧
      o.takeOperands operands = ({ o with program := d.name, numbers := numbers }, none)) ∨
    ∃ name numbers c, OperandFault operands name numbers c ∧
      o.takeOperands operands = ({ o with program := name, numbers := numbers }, some c) := by
  cases operands with
  | nil => exact Or.inr ⟨[], [], _, .noProgram, by rw [takeOperands, ← hp, ← hn]⟩
  | cons name texts =>
    cases hd : Demo.find? name with
    | none =>
      refine Or.inr ⟨name, [], _, .unknownProgram fun d hname => ?_, ?_⟩
      · rw [Demo.find?_eq_some_iff.mpr hname] at hd
        cases hd
      · simp only [takeOperands, hd, hn]
    | some d =>
      obtain rfl := Demo.find?_eq_some_iff.mp hd
      rcases readNumbers_cases texts with
        ⟨numbers, hmap, he⟩ | ⟨before, refused, after, numbers, rfl, hmap, hno, he⟩
      · by_cases hlength : numbers.length = d.parameterCount
        · refine Or.inl ⟨d, texts, numbers, rfl, hmap, hlength, ?_⟩
          simp only [takeOperands, hd, he, hlength, if_true]
        · refine Or.inr ⟨d.name, numbers, _, .wrongArity hmap hlength, ?_⟩
          simp only [takeOperands, hd, he, hlength, if_false]
      · refine Or.inr ⟨d.name, numbers, _, .notANumber hmap hno, ?_⟩
        simp only [takeOperands, hd, he]

/-! ## Reading a command -/

theorem parse_reading (arguments : List Text) :
    Reading (Flag.scan arguments).1 (Flag.scan arguments).2 (parse arguments).1
      (parse arguments).2 := by
  rcases hscan : Flag.scan arguments with ⟨flags, operands⟩
  rcases Flag.fine_or_wrong flags with hfine | ⟨good, bad, rest, c, rfl, hgood, hbad⟩
  · obtain ⟨o, hreflects, hp, hn, htake⟩ := takeFlags_append_of_fine reflects_nil hfine
    have hflags : takeFlags {} flags = (o, none) := by
      have := htake []
      rwa [List.append_nil] at this
    by_cases hlist : o.list = true
    · -- the operands are not looked at
      have hparse : parse arguments = (o, none) := by
        simp only [parse, hscan, hflags, hlist, if_true]
      rw [hparse]
      exact .listing hfine (hreflects.list.mp hlist) hreflects hp hn
    · have hparse : parse arguments = o.takeOperands operands := by
        simp only [parse, hscan, hflags]
        exact if_neg hlist
      have hnot : Flag.list ∉ flags := fun hmem => hlist (hreflects.list.mpr hmem)
      rw [hparse]
      rcases takeOperands_cases hp hn operands with
        ⟨d, texts, numbers, hoperands, hmap, hlength, he⟩ | ⟨name, numbers, c, hfault, he⟩
      · rw [he]
        exact .demo hfine hnot (hreflects.withOperands _ _) hoperands rfl hmap hlength
      · rw [he]
        exact .wrongOperands hfine hnot (hreflects.withOperands _ _) hfault
  · obtain ⟨o, hreflects, hp, hn, htake⟩ := takeFlags_append_of_fine reflects_nil hgood
    have hflags : takeFlags {} (good ++ bad :: rest) = (o, some c) := by
      rw [htake, takeFlags_cons_of_wrong hbad]
    have hparse : parse arguments = (o, some c) := by
      simp only [parse, hscan, hflags]
    rw [hparse]
    exact .wrongFlag rfl hgood hbad hreflects hp hn

theorem length_eq_of_read {texts : List Text} {numbers : List Binary64}
    (h : texts.map Binary64.read? = numbers.map some) : texts.length = numbers.length := by
  simpa using congrArg List.length h

/-- Operands that make a command are at fault in no way. -/
theorem OperandFault.not_accepted {operands texts : List Text} {name : Text} {d : Demo}
    {numbers accepted : List Binary64} {c : Complaint}
    (h : OperandFault operands name numbers c) (hoperands : operands = d.name :: texts)
    (hmap : texts.map Binary64.read? = accepted.map some)
    (hlength : texts.length = d.parameterCount) : False := by
  cases h with
  | noProgram => cases hoperands
  | unknownProgram hname =>
    cases hoperands
    exact hname d rfl
  | notANumber _ hno =>
    obtain ⟨-, rfl⟩ := List.cons.inj hoperands
    -- the refused text would have been read as a number
    have hmem : none ∈ accepted.map some := by
      rw [← hmap, List.map_append, List.map_cons, hno]
      exact List.mem_append_right _ List.mem_cons_self
    obtain ⟨x, -, hx⟩ := List.mem_map.mp hmem
    cases hx
  | @wrongArity d' _ _ hread harity =>
    obtain ⟨hname, rfl⟩ := List.cons.inj hoperands
    have hd : d' = d := by
      have hfind := Demo.find?_eq_some_iff.mpr hname
      rw [Demo.find?_eq_some_iff.mpr rfl] at hfind
      exact (Option.some.inj hfind).symm
    exact harity (by rw [← length_eq_of_read hread, hlength, hd])

/-! ## What the four ways of ending say -/

theorem Reading.eq_none_iff {flags : List Flag} {operands : List Text} {o : Options}
    {complaint : Option Complaint} (h : Reading flags operands o complaint) :
    complaint = none ↔
      (∀ f ∈ flags, f.Fine) ∧
        (Flag.list ∈ flags ∨
          ∃ (d : Demo) (texts : List Text) (numbers : List Binary64),
            operands = d.name :: texts ∧ texts.map Binary64.read? = numbers.map some ∧
              texts.length = d.parameterCount) := by
  cases h with
  | listing hfine hlist _ _ _ => exact ⟨fun _ => ⟨hfine, Or.inl hlist⟩, fun _ => rfl⟩
  | @demo d texts hfine _ _ hoperands _ hmap hlength =>
    refine ⟨fun _ => ⟨hfine, Or.inr ⟨d, texts, o.numbers, hoperands, hmap, ?_⟩⟩, fun _ => rfl⟩
    rw [length_eq_of_read hmap, hlength]
  | @wrongFlag good rest bad c hflags _ hbad _ _ _ =>
    refine ⟨fun h => (by cases h), fun h => ?_⟩
    have hmem : bad ∈ flags := by
      rw [hflags]
      exact List.mem_append_right _ List.mem_cons_self
    exact absurd (h.1 bad hmem) hbad.not_fine
  | wrongOperands _ hnot _ hfault =>
    refine ⟨fun h => (by cases h), fun h => ?_⟩
    rcases h.2 with hlist | ⟨d, texts, numbers, hoperands, hmap, hlength⟩
    · exact absurd hlist hnot
    · exact (hfault.not_accepted hoperands hmap hlength).elim

theorem Reading.of_none {flags : List Flag} {operands : List Text} {o : Options}
    (h : Reading flags operands o none) :
    o.Reflects flags ∧ (Flag.list ∈ flags → o.program = [] ∧ o.numbers = []) ∧
      (Flag.list ∉ flags → ∃ texts, operands = o.program :: texts ∧
        texts.map Binary64.read? = o.numbers.map some) := by
  cases h with
  | listing _ hlist hreflects hp hn =>
    exact ⟨hreflects, fun _ => ⟨hp, hn⟩, fun hnot => absurd hlist hnot⟩
  | @demo d texts _ hnot hreflects hoperands hp hmap _ =>
    exact ⟨hreflects, fun hlist => absurd hlist hnot,
      fun _ => ⟨texts, by rw [hoperands, hp], hmap⟩⟩

theorem Reading.of_some {flags : List Flag} {operands : List Text} {o : Options} {c : Complaint}
    (h : Reading flags operands o (some c)) :
    (∃ good bad rest, flags = good ++ bad :: rest ∧ (∀ f ∈ good, f.Fine) ∧ bad.Wrong c ∧
      o.Reflects good ∧ o.program = [] ∧ o.numbers = []) ∨
    ((∀ f ∈ flags, f.Fine) ∧ Flag.list ∉ flags ∧ o.Reflects flags ∧
      OperandFault operands o.program o.numbers c) := by
  cases h with
  | @wrongFlag good rest bad _ hflags hgood hbad hreflects hp hn =>
    exact Or.inl ⟨good, bad, rest, hflags, hgood, hbad, hreflects, hp, hn⟩
  | wrongOperands hfine hnot hreflects hfault =>
    exact Or.inr ⟨hfine, hnot, hreflects, hfault⟩

/-- **Exactly the grammar is accepted, and every field says what was read.** The arguments split
into flags and operands in one way. They make a command if and only if all flags are fine and
either the list of demos is asked for or the operands are the name of a demo with its numbers; the
options of a command reflect all of its flags. Otherwise the complaint is about the first flag that
is wrong, and the options reflect the flags before it, or it is about the operands, and they reflect
all flags. -/
theorem parse_grammar_exact (arguments : List Text) :
    ∃ flags operands,
      (∀ flags' operands',
        Flag.Scans [] arguments flags' operands' ↔ flags' = flags ∧ operands' = operands) ∧
      ((parse arguments).2 = none ↔
        (∀ f ∈ flags, f.Fine) ∧
          (Flag.list ∈ flags ∨
            ∃ (d : Demo) (texts : List Text) (numbers : List Binary64),
              operands = d.name :: texts ∧ texts.map Binary64.read? = numbers.map some ∧
                texts.length = d.parameterCount)) ∧
      ((parse arguments).2 = none →
        (parse arguments).1.Reflects flags ∧
          (Flag.list ∈ flags →
            (parse arguments).1.program = [] ∧ (parse arguments).1.numbers = []) ∧
          (Flag.list ∉ flags →
            ∃ texts, operands = (parse arguments).1.program :: texts ∧
              texts.map Binary64.read? = (parse arguments).1.numbers.map some)) ∧
      (∀ c, (parse arguments).2 = some c →
        (∃ good bad rest, flags = good ++ bad :: rest ∧ (∀ f ∈ good, f.Fine) ∧
          bad.Wrong c ∧ (parse arguments).1.Reflects good ∧
          (parse arguments).1.program = [] ∧ (parse arguments).1.numbers = []) ∨
        ((∀ f ∈ flags, f.Fine) ∧ Flag.list ∉ flags ∧ (parse arguments).1.Reflects flags ∧
          OperandFault operands (parse arguments).1.program (parse arguments).1.numbers c)) := by
  have hreading := parse_reading arguments
  refine ⟨(Flag.scan arguments).1, (Flag.scan arguments).2, fun flags operands => ?_, ?_⟩
  · rw [Flag.scans_iff, Prod.ext_iff]
    exact ⟨fun h => ⟨h.1.symm, h.2.symm⟩, fun h => ⟨h.1.symm, h.2.symm⟩⟩
  · refine ⟨hreading.eq_none_iff, fun h => ?_, fun c h => ?_⟩
    · rw [h] at hreading
      exact hreading.of_none
    · rw [h] at hreading
      exact hreading.of_some

end Options
end WordMachine
