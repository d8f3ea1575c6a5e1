import WordMachine.CommandLine.Execute
import WordMachine.Proofs.CommandLine.Grammar
import WordMachine.Proofs.Stack.Listing
import WordMachine.Proofs.StandardWords

/-!
# How commands end

`CommandLine.execute` can in principle meet a fault: the options may name no demo, a demo may be
given too few numbers, its run may be given up or may fail. **None of this happens.** The options of
an accepted command name a demo and carry as many numbers as it takes (`demo_of_parse`), which is
all that the program of a demo needs; and the program, executed step by step for arbitrary numbers,
leaves its answer as the only value on the stack (`Answers.executes`). Infinities and NaNs are
numbers like any other here, since no step asks what a number is.
-/

set_option autoImplicit false

namespace WordMachine

namespace Demo

/-- What a demo computes from its numbers. -/
inductive Answers : Demo → List Binary64 → Binary64 → Prop
  | smoke : Answers .smoke [] ((Binary64.ofNat 1).add (Binary64.ofNat 2))
  | distance {x₁ y₁ x₂ y₂ : Binary64} :
      Answers .distance [x₁, y₁, x₂, y₂]
        (((x₁.sub x₂).mul (x₁.sub x₂)).add ((y₁.sub y₂).mul (y₁.sub y₂))).sqrt

/-- With all of its numbers, a demo has an answer. -/
theorem exists_answer {d : Demo} {numbers : List Binary64}
    (h : numbers.length = d.parameterCount) : ∃ x, d.Answers numbers x := by
  cases d with
  | smoke =>
    rw [List.eq_nil_of_length_eq_zero h]
    exact ⟨_, .smoke⟩
  | distance =>
    -- every other length is refuted by `h`
    match numbers, h with
    | [x₁, y₁, x₂, y₂], _ => exact ⟨_, .distance⟩

theorem executes_squaredDifference (host : Host) (a b : Binary64) (s : Stack) :
    Machine.Executes ⟨.standard, host⟩ (squaredDifference a b) s
      (s.push (.number ((a.sub b).mul (a.sub b)))) :=
  .cons (Machine.advances_number _ a _) <| .cons (Machine.advances_number _ b _) <|
  .cons (Machine.advances_standard (StandardWord.binary_push_push .subtract _ _ _ _)) <|
  .cons (Machine.advances_standard (StandardWord.perform_dup_push _ _)) <|
  .cons (Machine.advances_standard (StandardWord.binary_push_push .multiply _ _ _ _)) .nil

/-- The program of a demo leaves the answer, and nothing else, on the stack. -/
theorem Answers.executes {d : Demo} {numbers : List Binary64} {x : Binary64}
    (h : d.Answers numbers x) (host : Host) :
    ∃ p, d.program? numbers = some p ∧
      Machine.Executes ⟨.standard, host⟩ p.instructions .empty (Stack.empty.push (.number x)) := by
  cases h with
  | smoke =>
    refine ⟨smokeProgram, rfl, ?_⟩
    exact .cons (Machine.advances_number _ _ _) <| .cons (Machine.advances_number _ _ _) <|
      .cons (Machine.advances_standard (StandardWord.binary_push_push .add _ _ _ _)) .nil
  | @distance x₁ y₁ x₂ y₂ =>
    refine ⟨distanceProgram x₁ y₁ x₂ y₂, rfl, ?_⟩
    have hx := executes_squaredDifference host x₁ x₂ .empty
    have hy := executes_squaredDifference host y₁ y₂
      (Stack.empty.push (.number ((x₁.sub x₂).mul (x₁.sub x₂))))
    refine (hx.append hy).append ?_
    exact .cons (Machine.advances_standard (StandardWord.binary_push_push .add _ _ _ _)) <|
      .cons (Machine.advances_standard (StandardWord.unary_push .sqrt _ _ _)) .nil

end Demo

/-! ## What is shown -/

theorem Stack.display_push_empty (v : Value) (count : Nat) :
    (Stack.empty.push v).display count = if count = 0 then [] else v.line := by
  have hdepth : (Stack.empty.push v).depth < UInt64.size := by
    rw [Stack.depth_push]
    decide
  rw [Stack.display_eq hdepth]
  cases count with
  | zero => rfl
  | succ n =>
    rw [if_neg (Nat.succ_ne_zero n)]
    change v.line ++ (List.take n []).flatMap Value.line = v.line
    rw [List.take_nil, List.flatMap_nil, List.append_nil]

/-- A number is shown whole. -/
theorem Value.line_number (x : Binary64) :
    (Value.number x).line = Text.ofString "number(" ++ x.text ++ Text.ofString ")\n" := by
  rw [Value.line_of_literal (Or.inl rfl), Value.text, Value.payloadText_number]
  change Text.ofString "number(" ++ x.text ++ Text.ofString ")" ++ Text.ofString "\n" = _
  rw [List.append_assoc]
  rfl

namespace CommandLine

/-- An accepted command that does not ask for the list of demos names one, with its numbers. -/
theorem demo_of_parse {arguments : List Text} {o : Options}
    (h : Options.parse arguments = (o, none)) (hlist : o.list = false) :
    ∃ d : Demo, o.program = d.name ∧ o.numbers.length = d.parameterCount := by
  have hreading := Options.parse_reading arguments
  rw [h] at hreading
  cases hreading with
  | listing _ hmem hreflects _ _ =>
    rw [hreflects.list.mpr hmem] at hlist
    cases hlist
  | @demo d _ _ _ _ _ hp _ hlength => exact ⟨d, hp, hlength⟩

/-- What a demo with the given answer prints. -/
def answerOutput (count : Nat) (x : Binary64) : Text :=
  if count = 0 then [] else Text.ofString "number(" ++ x.text ++ Text.ofString ")\n"

/-- An answer is told apart from any other text by its first byte, if there is one. -/
theorem answerOutput_ne {t : Text} {first : UInt8} (ht : t.head? = some first)
    (hfirst : first ≠ 0x6e) (count : Nat) (x : Binary64) : answerOutput count x ≠ t := by
  intro h
  rw [← h, answerOutput] at ht
  split at ht
  · cases ht
  · exact hfirst (Option.some.inj ht).symm

theorem answerOutput_ne_usage (count : Nat) (x : Binary64) : answerOutput count x ≠ usage :=
  answerOutput_ne (show usage.head? = some 0x55 from rfl) (by decide) count x

theorem answerOutput_ne_listing (count : Nat) (x : Binary64) : answerOutput count x ≠ listing :=
  answerOutput_ne (show listing.head? = some 0x09 from rfl) (by decide) count x

theorem usage_ne_listing : usage ≠ listing := by
  intro h
  have hhead : usage.head? = listing.head? := by rw [h]
  cases hhead

/-- A demo that runs to an answer has it shown, after the announcement and the trace. -/
theorem runDemo_eq {o : Options} {d : Demo} {p : Program} {x : Binary64}
    (hd : Demo.find? o.program = some d) (hp : d.program? o.numbers = some p)
    (hrun : (Machine.mk .standard .none).run p 0 .empty = .done (Stack.empty.push (.number x))) :
    runDemo o = .ok ⟨0, answerOutput o.showCount x,
      announcement ⟨Text.ofString "RUNTIME", o.verbosity⟩ o.program
        ++ ((Machine.mk .standard .none).runTraced ⟨true, o.verbosity⟩ p 0 .empty).1⟩ := by
  -- a traced run ends as the run does, at every verbosity
  have hobserve := Machine.observe_snd ⟨.standard, .none⟩ p 0 .empty
  rw [hrun] at hobserve
  rw [answerOutput, ← Value.line_number, ← Stack.display_push_empty]
  simp only [runDemo, hd, hp, Machine.runTraced, hobserve]

theorem runDemo_eq_ok {o : Options} {d : Demo} {p : Program} {x : Binary64}
    (hd : Demo.find? o.program = some d) (hp : d.program? o.numbers = some p)
    (hrun : (Machine.mk .standard .none).run p 0 .empty = .done (Stack.empty.push (.number x))) :
    ∃ messages, runDemo o = .ok ⟨0, answerOutput o.showCount x, messages⟩ :=
  ⟨_, runDemo_eq hd hp hrun⟩

/-! ## The three ways of ending -/

/-- How a command that is read as options and perhaps a complaint ends. -/
inductive Ending (command : Text) (o : Options) : Option Complaint → Reply → Prop
  /-- A refused command prints how it is used. -/
  | refused {complaint : Complaint} :
      Ending command o (some complaint) ⟨1, usage, complaint.text command⟩
  /-- The list of demos is asked for. -/
  | listed : o.list = true → Ending command o none ⟨0, listing, []⟩
  /-- A demo is found, is given exactly its numbers, and runs to its answer, which is shown on one
  line if anything is. -/
  | ran {d : Demo} {p : Program} {x : Binary64} {messages : Text} :
      o.list = false → Demo.find? o.program = some d → o.numbers.length = d.parameterCount →
      d.program? o.numbers = some p → d.Answers o.numbers x →
      (Machine.mk .standard .none).run p 0 .empty = .done (Stack.empty.push (.number x)) →
      (0x0a : UInt8) ∉ x.text → Ending command o none ⟨0, answerOutput o.showCount x, messages⟩

theorem execute_ending (command : Text) (arguments : List Text) :
    ∃ reply, execute command arguments = .ok reply ∧
      Ending command (Options.parse arguments).1 (Options.parse arguments).2 reply := by
  rcases hparse : Options.parse arguments with ⟨o, _ | complaint⟩
  · cases hlist : o.list with
    | true =>
      refine ⟨_, ?_, .listed hlist⟩
      simp only [execute, hparse, hlist, if_true]
    | false =>
      obtain ⟨d, hname, hlength⟩ := demo_of_parse hparse hlist
      have hd : Demo.find? o.program = some d := Demo.find?_eq_some_iff.mpr hname.symm
      obtain ⟨x, hx⟩ := Demo.exists_answer hlength
      obtain ⟨p, hp, hexecutes⟩ := hx.executes .none
      have hrun : (Machine.mk .standard .none).run p 0 .empty
          = .done (Stack.empty.push (.number x)) := Machine.runList_eq_done_iff.mpr hexecutes
      obtain ⟨messages, hreply⟩ := runDemo_eq_ok hd hp hrun
      refine ⟨⟨0, answerOutput o.showCount x, messages⟩, ?_,
        .ran hlist hd hlength hp hx hrun x.newline_not_mem_text⟩
      simp only [execute, hparse, hlist]
      exact hreply
  · refine ⟨_, ?_, .refused⟩
    simp only [execute, hparse]

theorem Ending.status_eq_one_iff {command : Text} {o : Options} {complaint : Option Complaint}
    {reply : Reply} (h : Ending command o complaint reply) :
    reply.status = 1 ↔ complaint ≠ none := by
  have hzero : (0 : UInt32) ≠ 1 := by decide
  cases h with
  | refused => exact ⟨fun _ hc => (by cases hc), fun _ => rfl⟩
  | listed _ => exact ⟨fun hs => absurd hs hzero, fun hc => absurd rfl hc⟩
  | ran => exact ⟨fun hs => absurd hs hzero, fun hc => absurd rfl hc⟩

theorem Ending.output_eq_usage_iff {command : Text} {o : Options} {complaint : Option Complaint}
    {reply : Reply} (h : Ending command o complaint reply) :
    reply.output = usage ↔ complaint ≠ none := by
  cases h with
  | refused => exact ⟨fun _ hc => (by cases hc), fun _ => rfl⟩
  | listed _ => exact ⟨fun ho => absurd ho.symm usage_ne_listing, fun hc => absurd rfl hc⟩
  | ran => exact ⟨fun ho => absurd ho (answerOutput_ne_usage _ _), fun hc => absurd rfl hc⟩

theorem Ending.output_eq_listing_iff {command : Text} {o : Options} {complaint : Option Complaint}
    {reply : Reply} (h : Ending command o complaint reply) :
    reply.output = listing ↔ complaint = none ∧ o.list = true := by
  cases h with
  | refused => exact ⟨fun ho => absurd ho usage_ne_listing, fun hc => (by cases hc.1)⟩
  | listed hlist => exact ⟨fun _ => ⟨rfl, hlist⟩, fun _ => rfl⟩
  | ran hlist =>
    refine ⟨fun ho => absurd ho (answerOutput_ne_listing _ _), fun hc => ?_⟩
    rw [hc.2] at hlist
    cases hlist

/-- **Every command ends, in one of three ways, and only its arguments decide which.** A refused
command prints how it is used, with status one. An accepted one has status zero: it prints the list
of demos if that is asked for, and otherwise the answer of the demo it names, whose run does not
fail. -/
theorem execute_outcome (command : Text) (arguments : List Text) :
    ∃ reply, execute command arguments = .ok reply ∧
      Ending command (Options.parse arguments).1 (Options.parse arguments).2 reply ∧
      (reply.output = usage ↔ (Options.parse arguments).2 ≠ none) ∧
      (reply.output = listing ↔
        (Options.parse arguments).2 = none ∧ (Options.parse arguments).1.list = true) ∧
      (reply.status = 1 ↔ (Options.parse arguments).2 ≠ none) := by
  obtain ⟨reply, hreply, hending⟩ := execute_ending command arguments
  exact ⟨reply, hreply, hending, hending.output_eq_usage_iff, hending.output_eq_listing_iff,
    hending.status_eq_one_iff⟩

end CommandLine
end WordMachine
