import WordMachine.Proofs.CommandLine.Outcome
import WordMachine.Proofs.CommandLine.Spelling
import WordMachine.Proofs.Machine.Tracing

/-!
# Verbosity is only heard

A `-V` raises the verbosity by one, and only the announcement and the trace look at it. So **any
number of them in front of the other arguments changes what a command says, and nothing else**. A
refused command and the list of demos say the same at every verbosity. A demo says nothing at zero,
its announcement at one, and the announcement and the trace of its run from two on (`Says`).

The options are compared through `Options.louder`, which raises the verbosity of options that are
there already. Reading flags and operands commutes with it (`takeFlags_louder`,
`takeOperands_louder`), since both only ever add to the verbosity.
-/

set_option autoImplicit false

namespace WordMachine

namespace Options

/-- The same options at a verbosity that is raised by a number, as a machine word. -/
def louder (o : Options) (k : Nat) : Options :=
  { o with verbosity := o.verbosity + UInt32.ofNat k }

theorem toNat_verbosity_louder (o : Options) (k : Nat) :
    (o.louder k).verbosity.toNat = (o.verbosity.toNat + k) % 0x100000000 := by
  rw [louder, UInt32.toNat_add, UInt32.toNat_ofNat']
  exact Nat.add_mod_mod _ _ _

theorem louder_zero (o : Options) : o.louder 0 = o := by
  rw [louder, show UInt32.ofNat 0 = 0 from rfl, UInt32.add_zero]

theorem louder_louder (o : Options) (j k : Nat) : (o.louder j).louder k = o.louder (j + k) := by
  simp only [louder, UInt32.add_assoc, UInt32.ofNat_add]

theorem takeFlags_verbose (o : Options) (flags : List Flag) :
    o.takeFlags (.verbose :: flags) = (o.louder 1).takeFlags flags := rfl

theorem takeFlags_louder (o : Options) (k : Nat) (flags : List Flag) :
    (o.louder k).takeFlags flags = ((o.takeFlags flags).1.louder k, (o.takeFlags flags).2) := by
  induction flags generalizing o with
  | nil => rfl
  | cons f flags ih =>
    cases f with
    | verbose =>
      rw [takeFlags_verbose, takeFlags_verbose, louder_louder, Nat.add_comm, ← louder_louder, ih]
    | list => exact ih { o with list := true }
    | count value =>
      rw [takeFlags, takeFlags]
      cases readCount? value with
      | some n => exact ih { o with showCount := n }
      | none => rfl
    | unknown letter => rfl
    | missingCount => rfl

theorem takeOperands_louder (o : Options) (k : Nat) (operands : List Text) :
    (o.louder k).takeOperands operands
      = ((o.takeOperands operands).1.louder k, (o.takeOperands operands).2) := by
  cases operands with
  | nil => rfl
  | cons name texts =>
    rw [takeOperands, takeOperands]
    cases Demo.find? name with
    | none => rfl
    | some d =>
      rcases readNumbers texts with ⟨numbers, _ | refused⟩
      · simp only
        split
        · rfl
        · rfl
      · rfl

theorem takeFlags_replicate_verbose (o : Options) (k : Nat) (flags : List Flag) :
    o.takeFlags (List.replicate k .verbose ++ flags) = (o.louder k).takeFlags flags := by
  induction k generalizing o with
  | zero => rw [louder_zero]; rfl
  | succ k ih =>
    rw [List.replicate_succ, List.cons_append, takeFlags_verbose, ih, louder_louder, Nat.add_comm]

theorem scan_replicate_verbose (k : Nat) (arguments : List Text) :
    Flag.scan (List.replicate k [Flag.dash, 0x56] ++ arguments)
      = (List.replicate k .verbose ++ (Flag.scan arguments).1, (Flag.scan arguments).2) := by
  induction k with
  | zero => rfl
  | succ k ih =>
    rw [List.replicate_succ, List.cons_append, Flag.scan_cluster_cons (by decide) (by decide),
      Flag.scanFrom_nil, ih]
    rfl

/-- Reading commutes with raising the verbosity. -/
theorem parse_replicate_verbose (k : Nat) (arguments : List Text) :
    parse (List.replicate k [Flag.dash, 0x56] ++ arguments)
      = ((parse arguments).1.louder k, (parse arguments).2) := by
  rw [parse, parse, scan_replicate_verbose]
  simp only [takeFlags_replicate_verbose, takeFlags_louder]
  rcases takeFlags {} (Flag.scan arguments).1 with ⟨o, _ | complaint⟩
  · simp only [takeOperands_louder]
    change (if o.list then _ else _) = _
    split
    · rfl
    · rfl
  · rfl

end Options

/-! ## What a demo says -/

theorem Demo.zero_not_mem_name (d : Demo) : (0 : UInt8) ∉ d.name := by
  cases d with
  | smoke => decide
  | distance => decide

namespace CommandLine

/-- A line of information as it is written. -/
def infoLine (message : Text) : Text :=
  Text.ofString "\x1b[33mINFO\x1b[0m: " ++ message ++ Text.ofString "\n"

/-- The three lines that are written before a demo runs. -/
def infoLines (name : Text) : Text :=
  infoLine (Text.ofString "loading standard library...")
    ++ infoLine (Text.ofString "building program `" ++ name ++ Text.ofString "'...")
    ++ infoLine (Text.ofString "interpreting...")

/-- What a demo of the given name and program says at a verbosity. -/
structure Says (name : Text) (p : Program) (verbosity : UInt32) (messages : Text) : Prop where
  quiet : verbosity = 0 → messages = []
  informed : verbosity = 1 → messages = infoLines name
  traced : 2 ≤ verbosity → ∃ lines, messages = infoLines name ++ lines.flatten ∧
    (Machine.mk .standard .none).IsTrace p 0 .empty 0 lines

theorem logMessage_building {name : Text} (hname : (0 : UInt8) ∉ name) :
    logMessage (Text.ofString "building program `%s'...") (some name)
      = Text.ofString "building program `" ++ name ++ Text.ofString "'..." := by
  rw [logMessage, Text.upToNul_eq_self hname]
  rfl

theorem announcement_eq {name : Text} (hname : (0 : UInt8) ∉ name) (l : Logger) :
    announcement l name = if l.verbosity < 1 then [] else infoLines name := by
  rw [announcement, logMessage_building hname]
  simp only [Logger.info]
  split
  · rfl
  · rfl

theorem runTraced_fst (m : Machine) (tracing : Tracing) (p : Program) :
    (m.runTraced tracing p 0 .empty).1
      = if tracing.isOn then (m.observe p 0 .empty).1.flatMap TraceRecord.text else [] := rfl

/-- The announcement and the trace are what is said, at every verbosity. -/
theorem says_announcement {name : Text} (hname : (0 : UInt8) ∉ name) (domain : Text) (p : Program)
    (verbosity : UInt32) :
    Says name p verbosity (announcement ⟨domain, verbosity⟩ name
      ++ ((Machine.mk .standard .none).runTraced ⟨true, verbosity⟩ p 0 .empty).1) := by
  rw [announcement_eq hname, runTraced_fst]
  refine ⟨?_, ?_, fun hloud => ?_⟩
  · rintro rfl
    rfl
  · rintro rfl
    exact List.append_nil _
  · have hinfo : ¬verbosity < 1 := fun hlt =>
      absurd (UInt32.lt_of_lt_of_le hlt (by decide)) (UInt32.not_lt.mpr hloud)
    obtain ⟨lines, htrace, htext⟩ :=
      (Machine.mk .standard .none).observe_isTrace p 0 .empty
    refine ⟨lines, ?_, htrace⟩
    rw [if_neg hinfo, if_pos ((Tracing.isOn_iff _).mpr ⟨rfl, hloud⟩), htext]

/-! ## Two commands -/

theorem execute_of_refused {command : Text} {arguments : List Text} {o : Options} {c : Complaint}
    (h : Options.parse arguments = (o, some c)) :
    execute command arguments = .ok ⟨1, usage, c.text command⟩ := by
  rw [execute, h]

theorem execute_of_listed {command : Text} {arguments : List Text} {o : Options}
    (h : Options.parse arguments = (o, none)) (hlist : o.list = true) :
    execute command arguments = .ok ⟨0, listing, []⟩ := by
  rw [execute, h]
  exact if_pos hlist

/-- A demo shows the same answer at every verbosity. -/
theorem execute_of_ran {command : Text} {arguments : List Text} {o : Options} {d : Demo}
    {p : Program} {x : Binary64} (h : Options.parse arguments = (o, none)) (hlist : o.list = false)
    (hd : Demo.find? o.program = some d) (hp : d.program? o.numbers = some p)
    (hrun : (Machine.mk .standard .none).run p 0 .empty = .done (Stack.empty.push (.number x))) :
    ∃ messages, execute command arguments = .ok ⟨0, answerOutput o.showCount x, messages⟩ ∧
      Says d.name p o.verbosity messages := by
  have hname := Demo.find?_eq_some_iff.mp hd
  refine ⟨_, ?_, says_announcement d.zero_not_mem_name (Text.ofString "RUNTIME") p _⟩
  rw [execute, h, hname]
  simp only [hlist, Bool.false_eq_true, if_false]
  exact runDemo_eq hd hp hrun

/-- **How flags are spelled, and how many ask for more, does not change what a command does.**
Another spelling gives the same options or the same complaint, and the same reply. With `k` more
`-V` in front, the verbosity is raised by `k` in a machine word and every other option is as it was;
so are the output, the status, and the messages of a command that is refused or lists the demos. A
demo says at each of the two verbosities what there is to say. -/
theorem spelling_and_verbosity_immaterial (command : Text) :
    (∀ a b, Flag.Respelled a b →
      Options.parse a = Options.parse b ∧ execute command a = execute command b) ∧
    ∀ (arguments : List Text) (k : Nat), ∃ reply louder,
      execute command arguments = .ok reply ∧
      execute command (List.replicate k [Flag.dash, 0x56] ++ arguments) = .ok louder ∧
      Options.parse (List.replicate k [Flag.dash, 0x56] ++ arguments)
        = ((Options.parse arguments).1.louder k, (Options.parse arguments).2) ∧
      ((Options.parse arguments).1.louder k).verbosity.toNat
        = ((Options.parse arguments).1.verbosity.toNat + k) % 0x100000000 ∧
      louder.output = reply.output ∧ louder.status = reply.status ∧
      ((Options.parse arguments).2 ≠ none ∨ (Options.parse arguments).1.list = true →
        louder.messages = reply.messages) ∧
      ((Options.parse arguments).2 = none → (Options.parse arguments).1.list = false →
        ∃ d p, Demo.find? (Options.parse arguments).1.program = some d ∧
          d.program? (Options.parse arguments).1.numbers = some p ∧
          Says d.name p (Options.parse arguments).1.verbosity reply.messages ∧
          Says d.name p ((Options.parse arguments).1.louder k).verbosity louder.messages) := by
  refine ⟨fun a b h => ⟨Options.parse_respelled h, execute_respelled h command⟩,
    fun arguments k => ?_⟩
  have hlouder := Options.parse_replicate_verbose k arguments
  obtain ⟨reply, -, hending⟩ := execute_ending command arguments
  rcases hparse : Options.parse arguments with ⟨o, c⟩
  rw [hparse] at hlouder hending
  have hverbosity := o.toNat_verbosity_louder k
  cases hending with
  | refused =>
    refine ⟨_, _, execute_of_refused hparse, execute_of_refused hlouder, hlouder, hverbosity, rfl,
      rfl, fun _ => rfl, nofun⟩
  | listed hlist =>
    refine ⟨_, _, execute_of_listed hparse hlist, execute_of_listed hlouder hlist, hlouder,
      hverbosity, rfl, rfl, fun _ => rfl, fun _ hno => ?_⟩
    cases hlist.symm.trans hno
  | @ran d p x _ hlist hd _ hp _ hrun =>
    obtain ⟨messages, hreply, hsays⟩ := execute_of_ran hparse hlist hd hp hrun
    obtain ⟨messages', hreply', hsays'⟩ := execute_of_ran hlouder hlist hd hp hrun
    refine ⟨_, _, hreply, hreply', hlouder, hverbosity, rfl, rfl, ?_, fun _ _ =>
      ⟨d, p, hd, hp, hsays, hsays'⟩⟩
    rintro (hno | hyes)
    · exact absurd rfl hno
    · cases hlist.symm.trans hyes

/-- A cluster behind a value that is an argument of its own, and a demo that is asked to say
more. -/
theorem spelling_and_verbosity_immaterial_smoke :
    Options.parse (["-n", "5", "-Vn7", "smoke"].map Text.ofString)
      = Options.parse (["-n", "5", "-V", "-n7", "smoke"].map Text.ofString) ∧
    ∃ reply louder,
      execute (Text.ofString "slang") [Text.ofString "smoke"] = .ok reply ∧
      execute (Text.ofString "slang") [Text.ofString "-V", Text.ofString "smoke"] = .ok louder ∧
      louder.output = reply.output ∧ louder.status = reply.status ∧ reply.messages = [] ∧
      louder.messages = infoLines (Text.ofString "smoke") := by
  obtain ⟨hspelling, hverbosity⟩ := spelling_and_verbosity_immaterial (Text.ofString "slang")
  constructor
  · have hbefore : Flag.Passes [] [[Flag.dash, Flag.countLetter], Text.ofString "5"] :=
      .cluster (by decide) (by decide) (.separate .done)
    have hrespelled := @Flag.Respelled.split _ [Text.ofString "smoke"] [0x56]
      (Text.ofString "n7") hbefore (List.forall_mem_singleton.mpr (Or.inl rfl)) (by decide)
      (by decide)
    exact (hspelling _ _ hrespelled).1
  · obtain ⟨reply, louder, hreply, hlouder, -, -, houtput, hstatus, -, hsays⟩ :=
      hverbosity [Text.ofString "smoke"] 1
    obtain ⟨d, p, hd, -, hquiet, hinformed⟩ := hsays rfl rfl
    have hname : d.name = Text.ofString "smoke" := Demo.find?_eq_some_iff.mp hd
    refine ⟨reply, louder, hreply, hlouder, houtput, hstatus, hquiet.quiet rfl, ?_⟩
    rw [hinformed.informed rfl, hname]

end CommandLine
end WordMachine
