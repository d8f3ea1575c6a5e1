import WordMachine.Proofs.Machine.Resumption
import WordMachine.Proofs.Script.Body
import WordMachine.Proofs.StandardWords.Cases

/-!
# Who is blamed

An operation may apply primitives and run programs, whose primitives may do the same. When something
fails far inside, the error passes through every primitive and every run around it, and each of the
primitives may rewrite it. Yet **exactly one of them does, and only an underflow**: the primitive
whose own action it was, which is named in the error; for everything further out the error is no
underflow any more and stays as it is.

`Fails` finds the cause of a failure by going inwards, without regard to what becomes of the error
on its way out. `Cause.Surfaces` says what is reported for a cause, without regard to how far inside
it was. That the two fit together is `underflow_blamed_once`.
-/

set_option autoImplicit false

namespace WordMachine

/-- An action that fails by itself: it reads a stack that is too short, or it is there to fail. -/
inductive Action.Breaks : Action → Stack → Error → Prop
  | pop {s : Stack} {e : Error} : s.pop = .error e → Breaks .pop s e
  | halve {s : Stack} {e : Error} : s.pop = .error e → Breaks .halve s e
  | top {s : Stack} {e : Error} : s.top = .error e → Breaks .top s e
  | peek {i : UInt64} {s : Stack} {e : Error} : s.peek i = .error e → Breaks (.peek i) s e
  | fail {s : Stack} {e : Error} : Breaks (.fail e) s e

/-- The innermost reason of a failure. -/
inductive Cause where
  /-- Something that a primitive of this name did itself failed with this error. -/
  | own (primitive : Text) (error : Error)
  /-- A run came to a word without a binding. -/
  | unbound (symbol : Text)

/-- What is reported for a cause. -/
inductive Cause.Surfaces : Cause → Error → Prop
  | underflow {name : Text} {e : Error} : e.kind = .stackUnderflow →
      Surfaces (.own name e)
        ⟨.arityMismatch, name, Text.ofString "not enough operands, " ++ e.message⟩
  | other {name : Text} {e : Error} : e.kind ≠ .stackUnderflow → Surfaces (.own name e) e
  | unbound {symbol : Text} : Surfaces (.unbound symbol) (.unboundWord symbol)

/-- What can fail: applying a primitive, and running a program from a position. -/
inductive Call where
  | apply (p : Primitive)
  | run (environment : Environment) (program : Program) (pc : Nat)

/-- A call fails on a stack because of a cause. The allowance is that of the host, and goes down by
one with each body inside another. -/
inductive Fails (w : World) (bodies : Nat → Body) : Nat → Call → Stack → Cause → Prop
  | standard {allowance : Nat} {p : Primitive} {word : StandardWord} {serial : Nat} {s : Stack}
      {e : Error} : p.operation = .standard word serial → word.perform s = .error e →
      Fails w bodies allowance (.apply p) s (.own p.name e)
  | own {allowance handle : Nat} {p : Primitive} {s t : Stack} {a : Action} {e : Error} :
      p.operation = .hosted handle →
      Body.Reaches w (w.hostOf bodies allowance) (bodies handle) s a t → a.Breaks t e →
      Fails w bodies (allowance + 1) (.apply p) s (.own p.name e)
  | applied {allowance handle : Nat} {p q : Primitive} {s t : Stack} {c : Cause} :
      p.operation = .hosted handle →
      Body.Reaches w (w.hostOf bodies allowance) (bodies handle) s (.apply (.primitive q)) t →
      Fails w bodies allowance (.apply q) t c → Fails w bodies (allowance + 1) (.apply p) s c
  | ran {allowance handle : Nat} {p : Primitive} {s t : Stack} {environment program : Text}
      {c : Cause} : p.operation = .hosted handle →
      Body.Reaches w (w.hostOf bodies allowance) (bodies handle) s (.run environment program) t →
      Fails w bodies allowance (.run (w.environments environment) (w.programs program) 0) t c →
      Fails w bodies (allowance + 1) (.apply p) s c
  | unbound {allowance pc k : Nat} {environment : Environment} {program : Program} {s t : Stack}
      {symbol : Text} : pc ≤ k →
      Machine.Executes ⟨environment, w.hostOf bodies allowance⟩ (program.segment pc k) s t →
      program.fetch k = .ok (.word symbol) → environment.find? symbol = none →
      Fails w bodies allowance (.run environment program pc) s (.unbound symbol)
  | step {allowance pc k : Nat} {environment : Environment} {program : Program} {s t : Stack}
      {instruction : Value} {p : Primitive} {c : Cause} : pc ≤ k →
      Machine.Executes ⟨environment, w.hostOf bodies allowance⟩ (program.segment pc k) s t →
      program.fetch k = .ok instruction →
      Machine.Denotes ⟨environment, w.hostOf bodies allowance⟩ instruction (.primitive p) →
      Fails w bodies allowance (.apply p) t c →
      Fails w bodies allowance (.run environment program pc) s c

theorem Action.Breaks.fail_or_underflow {a : Action} {s : Stack} {e : Error} (h : a.Breaks s e) :
    a = .fail e ∨ e.kind = .stackUnderflow := by
  cases h with
  | pop hp => exact Or.inr (Stack.kind_of_pop hp)
  | halve hp => exact Or.inr (Stack.kind_of_pop hp)
  | top hp => exact Or.inr (Stack.kind_of_peek hp)
  | peek hp => exact Or.inr (Stack.kind_of_peek hp)
  | fail => exact Or.inl rfl

theorem Cause.surfaces_blame (name : Text) (e : Error) :
    (Cause.own name e).Surfaces (e.blame name) := by
  by_cases h : e.kind = .stackUnderflow
  · rw [Error.blame_of_underflow h]
    exact .underflow h
  · rw [Error.blame_of_kind_ne h]
    exact .other h

theorem Cause.Surfaces.kind_ne {c : Cause} {e : Error} (h : c.Surfaces e) :
    e.kind ≠ .stackUnderflow := by
  cases h with
  | underflow _ => exact Error.Kind.noConfusion
  | other h => exact h
  | unbound => exact Error.Kind.noConfusion

theorem Cause.Surfaces.unique {c : Cause} {e e' : Error} (h : c.Surfaces e) (h' : c.Surfaces e') :
    e = e' := by
  cases h with
  | underflow hk =>
    cases h' with
    | underflow _ => rfl
    | other hk' => exact absurd hk hk'
  | other hk =>
    cases h' with
    | underflow hk' => exact absurd hk' hk
    | other _ => rfl
  | unbound => cases h'; rfl

/-- The failure of a call: its error, and for a run also where and with which stack. -/
def Call.FailsWith (host : Host) (s : Stack) (e : Error) : Call → Prop
  | .apply p => p.apply host s = .failed e
  | .run environment program pc =>
    ∃ k t, (Machine.mk environment host).run program pc s = .failed ⟨e, k, t⟩

/-- An action fails by itself, or because of the primitive or the program that it calls. -/
theorem World.act_eq_failed_iff {w : World} {host : Host} {a : Action} {s : Stack} {e : Error} :
    w.act host a s = .failed e ↔
      a.Breaks s e ∨
      (∃ q, a = .apply (.primitive q) ∧ (Call.apply q).FailsWith host s e) ∨
      ∃ environment program, a = .run environment program ∧
        (Call.run (w.environments environment) (w.programs program) 0).FailsWith host s e := by
  constructor
  · intro h
    cases a with
    | pop =>
      cases hp : s.pop with
      | ok r => rw [act, hp] at h; cases h
      | error e' => rw [act, hp] at h; cases h; exact Or.inl (.pop hp)
    | top =>
      cases hp : s.top with
      | ok v => rw [act, hp] at h; cases h
      | error e' => rw [act, hp] at h; cases h; exact Or.inl (.top hp)
    | peek i =>
      cases hp : s.peek i with
      | ok v => rw [act, hp] at h; cases h
      | error e' => rw [act, hp] at h; cases h; exact Or.inl (.peek hp)
    | push v => cases h
    | depth => cases h
    | clear => cases h
    | halve =>
      rw [act] at h
      cases hp : s.pop with
      | ok r =>
        rw [hp] at h
        obtain ⟨v, rest⟩ := r
        cases v <;> cases h
      | error e' => rw [hp] at h; cases h; exact Or.inl (.halve hp)
    | fail e' => cases h; exact Or.inl .fail
    | apply v =>
      cases v with
      | primitive q => exact Or.inr (Or.inl ⟨q, rfl, h⟩)
      | number x => cases h
      | string content => cases h
      | word symbol => cases h
    | run environment program =>
      obtain ⟨⟨e', k, t⟩, hrun, rfl⟩ := Outcome.mapError_eq_failed_iff.mp h
      exact Or.inr (Or.inr ⟨environment, program, rfl, k, t, hrun⟩)
  · rintro (hb | ⟨q, rfl, hq⟩ | ⟨environment, program, rfl, k, t, hrun⟩)
    · cases hb with
      | pop hp => rw [act, hp]; rfl
      | halve hp => rw [act, hp]; rfl
      | top hp => rw [act, hp]; rfl
      | peek hp => rw [act, hp]; rfl
      | fail => rfl
    · exact hq
    · rw [act, hrun]; rfl

section

variable {w : World} {bodies : Nat → Body} {allowance : Nat}

theorem apply_hosted_eq_failed_iff {p : Primitive} {handle : Nat} {s : Stack} {e : Error}
    (h : p.operation = .hosted handle) :
    p.apply (w.hostOf bodies (allowance + 1)) s = .failed e ↔
      ∃ a t e', Body.Reaches w (w.hostOf bodies allowance) (bodies handle) s a t ∧
        w.act (w.hostOf bodies allowance) a t = .failed e' ∧ e'.blame p.name = e := by
  rw [Primitive.apply, h, Outcome.mapError_eq_failed_iff]
  simp only [Operation.perform, World.hostOf, Body.perform_eq_failed_iff]
  constructor
  · rintro ⟨e', ⟨a, t, hr, ha⟩, he⟩
    exact ⟨a, t, e', hr, ha, he⟩
  · rintro ⟨a, t, e', hr, ha, he⟩
    exact ⟨e', ⟨a, t, hr, ha⟩, he⟩

/-- If the causes of what primitives report are known, so are those of what runs report. -/
theorem exists_cause_of_run
    (h : ∀ p s e, p.apply (w.hostOf bodies allowance) s = .failed e →
      ∃ c, Fails w bodies allowance (.apply p) s c ∧ c.Surfaces e)
    {environment : Environment} {program : Program} {pc k : Nat} {s t : Stack} {e : Error}
    (hrun : (Machine.mk environment (w.hostOf bodies allowance)).run program pc s
      = .failed ⟨e, k, t⟩) :
    ∃ c, Fails w bodies allowance (.run environment program pc) s c ∧ c.Surfaces e := by
  obtain ⟨hle, -, hx, instruction, hfetch, hh⟩ := Machine.run_eq_failed_iff.mp hrun
  cases hh with
  | unbound hf => exact ⟨_, .unbound hle hx hfetch hf, .unbound⟩
  | apply hd hp =>
    obtain ⟨c, hc, hs⟩ := h _ _ _ hp
    exact ⟨c, .step hle hx hfetch hd hc, hs⟩

theorem exists_cause_of_standard {p : Primitive} {word : StandardWord} {serial : Nat} {host : Host}
    {s : Stack} {e : Error} (hop : p.operation = .standard word serial)
    (h : p.apply host s = .failed e) :
    ∃ c, Fails w bodies allowance (.apply p) s c ∧ c.Surfaces e := by
  obtain ⟨e', hw, rfl⟩ := (Primitive.apply_eq_failed_iff hop).mp h
  exact ⟨_, .standard hop (StandardWord.perform_eq_iff.mpr hw), Cause.surfaces_blame _ _⟩

/-- Whatever a primitive reports has a cause, and is what is reported for that cause. -/
theorem exists_cause_of_apply (w : World) (bodies : Nat → Body) (allowance : Nat) :
    ∀ p s e, p.apply (w.hostOf bodies allowance) s = .failed e →
      ∃ c, Fails w bodies allowance (.apply p) s c ∧ c.Surfaces e := by
  induction allowance with
  | zero =>
    intro p s e h
    cases hop : p.operation with
    | standard word serial => exact exists_cause_of_standard hop h
    | hosted handle => rw [Primitive.apply, hop] at h; cases h
  | succ allowance ih =>
    intro p s e h
    cases hop : p.operation with
    | standard word serial => exact exists_cause_of_standard hop h
    | hosted handle =>
      obtain ⟨a, t, e', hr, ha, rfl⟩ := (apply_hosted_eq_failed_iff hop).mp h
      rcases World.act_eq_failed_iff.mp ha with hb | ⟨q, rfl, hq⟩ | ⟨environment, program, rfl, hq⟩
      · exact ⟨_, .own hop hr hb, Cause.surfaces_blame _ _⟩
      -- the error of a call is no underflow, so this primitive leaves it alone
      · obtain ⟨c, hc, hs⟩ := ih q t e' hq
        rw [Error.blame_of_kind_ne hs.kind_ne]
        exact ⟨c, .applied hop hr hc, hs⟩
      · obtain ⟨k, u, hrun⟩ := hq
        obtain ⟨c, hc, hs⟩ := exists_cause_of_run ih hrun
        rw [Error.blame_of_kind_ne hs.kind_ne]
        exact ⟨c, .ran hop hr hc, hs⟩

/-- What fails because of a cause reports it. -/
theorem Fails.failsWith {call : Call} {s : Stack} {c : Cause} (h : Fails w bodies allowance call s c) :
    ∃ e, c.Surfaces e ∧ call.FailsWith (w.hostOf bodies allowance) s e := by
  induction h with
  | standard hop hw =>
    refine ⟨_, Cause.surfaces_blame _ _, (Primitive.apply_eq_failed_iff hop).mpr ?_⟩
    exact ⟨_, StandardWord.perform_eq_iff.mp hw, rfl⟩
  | own hop hr hb =>
    refine ⟨_, Cause.surfaces_blame _ _, (apply_hosted_eq_failed_iff hop).mpr ?_⟩
    exact ⟨_, _, _, hr, World.act_eq_failed_iff.mpr (Or.inl hb), rfl⟩
  | applied hop hr _ ih =>
    obtain ⟨e, hs, hq⟩ := ih
    refine ⟨e, hs, (apply_hosted_eq_failed_iff hop).mpr ⟨_, _, e, hr, ?_, ?_⟩⟩
    · exact World.act_eq_failed_iff.mpr (Or.inr (Or.inl ⟨_, rfl, hq⟩))
    · exact Error.blame_of_kind_ne hs.kind_ne _
  | ran hop hr _ ih =>
    obtain ⟨e, hs, hq⟩ := ih
    refine ⟨e, hs, (apply_hosted_eq_failed_iff hop).mpr ⟨_, _, e, hr, ?_, ?_⟩⟩
    · exact World.act_eq_failed_iff.mpr (Or.inr (Or.inr ⟨_, _, rfl, hq⟩))
    · exact Error.blame_of_kind_ne hs.kind_ne _
  | unbound hle hx hfetch hf =>
    have hrun := Machine.run_eq_failed_iff.mpr
      ⟨hle, Program.lt_size_of_fetch hfetch, hx, _, hfetch, .unbound hf⟩
    exact ⟨_, .unbound, _, _, hrun⟩
  | step hle hx hfetch hd _ ih =>
    obtain ⟨e, hs, hp⟩ := ih
    have hrun := Machine.run_eq_failed_iff.mpr
      ⟨hle, Program.lt_size_of_fetch hfetch, hx, _, hfetch, .apply hd hp⟩
    exact ⟨e, hs, _, _, hrun⟩

/-- A call fails with what its cause is reported as, and with nothing else. -/
theorem failsWith_iff (call : Call) {s : Stack} {e : Error} :
    call.FailsWith (w.hostOf bodies allowance) s e ↔
      ∃ c, Fails w bodies allowance call s c ∧ c.Surfaces e := by
  constructor
  · intro h
    cases call with
    | apply p => exact exists_cause_of_apply w bodies allowance p s e h
    | run environment program pc =>
      obtain ⟨k, t, hrun⟩ := h
      exact exists_cause_of_run (exists_cause_of_apply w bodies allowance) hrun
  · rintro ⟨c, hc, hs⟩
    obtain ⟨e', hs', h⟩ := hc.failsWith
    rw [hs.unique hs']
    exact h

end

/-- **Blamed once, on the right primitive.** Whatever the bodies of the hosted operations are, and
however deep they are nested: an application or a run that fails has an innermost cause, and it
fails with exactly what is reported for that cause. So neither ever fails with an underflow. An
action that fails by itself is an explicit failure or an underflow. The host of a world is one of
these hosts, by `World.hostOf_scripts`. -/
theorem underflow_blamed_once (w : World) (bodies : Nat → Body) (allowance : Nat) :
    (∀ (p : Primitive) s e, p.apply (w.hostOf bodies allowance) s = .failed e ↔
      ∃ c, Fails w bodies allowance (.apply p) s c ∧ c.Surfaces e) ∧
    (∀ environment program pc s e,
      (∃ k t, (Machine.mk environment (w.hostOf bodies allowance)).run program pc s
        = .failed ⟨e, k, t⟩) ↔
      ∃ c, Fails w bodies allowance (.run environment program pc) s c ∧ c.Surfaces e) ∧
    (∀ (p : Primitive) s e, p.apply (w.hostOf bodies allowance) s = .failed e →
      e.kind ≠ .stackUnderflow) ∧
    (∀ environment program pc s e k t,
      (Machine.mk environment (w.hostOf bodies allowance)).run program pc s = .failed ⟨e, k, t⟩ →
      e.kind ≠ .stackUnderflow) ∧
    (∀ (a : Action) s e, a.Breaks s e → a = .fail e ∨ e.kind = .stackUnderflow) := by
  refine ⟨?_, ?_, ?_, ?_, ?_⟩
  · intro p s e
    exact failsWith_iff (.apply p)
  · intro environment program pc s e
    exact failsWith_iff (.run environment program pc)
  · intro p s e h
    obtain ⟨c, -, hs⟩ := exists_cause_of_apply w bodies allowance p s e h
    exact hs.kind_ne
  · intro environment program pc s e k t h
    obtain ⟨c, -, hs⟩ := exists_cause_of_run (exists_cause_of_apply w bodies allowance) h
    exact hs.kind_ne
  · intro a s e h
    exact h.fail_or_underflow

/-- A world in which operation 0 runs a program whose only word is bound, under another name, to
operation 1, which reads too deep. -/
def relay : World where
  environments _ := Environment.empty.define (Text.ofString "alias")
    (.primitive ⟨Text.ofString "inner", .hosted 1⟩)
  programs _ := ⟨[.word (Text.ofString "alias")]⟩
  scripts
    | 0 => [.run [] []]
    | _ => [.peek 3]

/-- The primitive that read too deep is named, neither the word nor the primitive around it. -/
theorem underflow_blamed_once_relay :
    Primitive.apply (relay.host 2) ⟨Text.ofString "outer", .hosted 0⟩ .empty
      = .failed ⟨.arityMismatch, Text.ofString "inner",
          Text.ofString "not enough operands, " ++ (Error.stackUnderflow 4 0).message⟩ := by
  have hread : (Action.peek 3).Breaks .empty (.stackUnderflow 4 0) := .peek rfl
  rw [← World.hostOf_scripts]
  refine ((underflow_blamed_once relay _ 2).1 _ _ _).mpr ⟨_, ?_, .underflow rfl⟩
  refine .ran rfl .here (.step (Nat.le_refl 0) .nil rfl (.bound rfl) ?_)
  exact .own rfl .here hread

end WordMachine
