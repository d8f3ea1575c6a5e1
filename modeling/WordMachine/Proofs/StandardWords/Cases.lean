import WordMachine.Proofs.StandardWords

/-!
# The standard words, case by case

`StandardWord.Performs` lists what the nine words can do: which stacks each of them changes, and
into what, and which stacks each of them refuses, and with what error. **The list is complete and
exact** (`perform_eq_iff`), so a law about all nine words is proved by cases on it and never opens a
word again.

A primitive is *standard* if its operation is one of the words, whichever load made it and whatever
name it goes by. Where every primitive within reach is standard, no step is left to the host and
none can be aborted.
-/

set_option autoImplicit false

namespace WordMachine

theorem Value.exists_number {v : Value} (h : v.tag = .number) : ∃ x, v = .number x := by
  cases v with
  | number x => exact ⟨x, rfl⟩
  | string content => cases h
  | word symbol => cases h
  | primitive p => cases h

theorem Stack.exists_push_push {s : Stack} (h : 2 ≤ s.depth) :
    ∃ t u v, s = (Stack.push t u).push v := by
  rcases s.eq_empty_or_push with rfl | ⟨t, v, rfl⟩
  · exact absurd h (by decide)
  · rcases t.eq_empty_or_push with rfl | ⟨t, u, rfl⟩
    · rw [Stack.depth_push] at h
      exact absurd h (by decide)
    · exact ⟨t, u, v, rfl⟩

namespace StandardWord

/-- The function that an arithmetic word computes. -/
def operator? : StandardWord → Option (Binary64 → Binary64 → Binary64)
  | .add => some Binary64.add
  | .subtract => some Binary64.sub
  | .multiply => some Binary64.mul
  | .divide => some Binary64.div
  | .sqrt | .dup | .drop | .swap | .over => none

/-- The words that take numbers only. -/
def isNumeric : StandardWord → Bool
  | .add | .subtract | .multiply | .divide | .sqrt => true
  | .dup | .drop | .swap | .over => false

/-- The error of a word that needs a number and finds another value. -/
def refusal (w : StandardWord) (v : Value) : Error :=
  .typeMismatch w.name (Text.ofString "expected number, got " ++ v.tag.name)

/-- What a word does to a stack. The first six cases are successes; then come the operands that are
no numbers, where the top is looked at first; then the stacks that are too short. A word that pops
counts what it has left when it runs short, which is nothing, and not what it was given. -/
inductive Performs : StandardWord → Stack → Except Error Stack → Prop
  | arithmetic {w : StandardWord} {op : Binary64 → Binary64 → Binary64} {s : Stack}
      {x y : Binary64} : w.operator? = some op →
      Performs w ((s.push (.number x)).push (.number y)) (.ok (s.push (.number (op x y))))
  | sqrt {s : Stack} {x : Binary64} :
      Performs .sqrt (s.push (.number x)) (.ok (s.push (.number x.sqrt)))
  | dup {s : Stack} {v : Value} : Performs .dup (s.push v) (.ok ((s.push v).push v))
  | drop {s : Stack} {v : Value} : Performs .drop (s.push v) (.ok s)
  | swap {s : Stack} {u v : Value} :
      Performs .swap ((s.push u).push v) (.ok ((s.push v).push u))
  | over {s : Stack} {u v : Value} :
      Performs .over ((s.push u).push v) (.ok (((s.push u).push v).push u))
  | badTop {w : StandardWord} {s : Stack} {v : Value} : w.isNumeric → v.tag ≠ .number →
      Performs w (s.push v) (.error (w.refusal v))
  | badLeft {w : StandardWord} {s : Stack} {v : Value} {y : Binary64} : w.operator?.isSome →
      v.tag ≠ .number → Performs w ((s.push v).push (.number y)) (.error (w.refusal v))
  | empty {w : StandardWord} : w ≠ .over → Performs w .empty (.error (.stackUnderflow 1 0))
  | loneRight {w : StandardWord} {y : Binary64} : w.operator?.isSome →
      Performs w (Stack.empty.push (.number y)) (.error (.stackUnderflow 1 0))
  | loneSwap {v : Value} : Performs .swap (Stack.empty.push v) (.error (.stackUnderflow 1 0))
  | shortOver {s : Stack} : s.depth < 2 →
      Performs .over s (.error (.stackUnderflow 2 s.depth))

theorem perform_of_operator {w : StandardWord} {op : Binary64 → Binary64 → Binary64}
    (h : w.operator? = some op) (s : Stack) : w.perform s = w.binary op s := by
  cases w <;> simp only [operator?, Option.some.injEq, reduceCtorEq] at h <;> subst h <;> rfl

theorem popNumber_empty (w : StandardWord) :
    w.popNumber .empty = .error (.stackUnderflow 1 0) := rfl

theorem popNumber_push_of_tag_ne {v : Value} (h : v.tag ≠ .number) (w : StandardWord) (s : Stack) :
    w.popNumber (s.push v) = .error (w.refusal v) := by
  rw [popNumber, Stack.pop_push]
  cases v with
  | number x => exact absurd rfl h
  | string content => rfl
  | word symbol => rfl
  | primitive p => rfl

theorem binary_push_number (w : StandardWord) (op : Binary64 → Binary64 → Binary64) (s : Stack)
    (y : Binary64) :
    w.binary op (s.push (.number y))
      = w.popNumber s >>= fun r => .ok (r.2.push (.number (op r.1 y))) := by
  rw [binary, popNumber_push]
  rfl

theorem binary_of_error {w : StandardWord} {s : Stack} {e : Error} (h : w.popNumber s = .error e)
    (op : Binary64 → Binary64 → Binary64) : w.binary op s = .error e := by
  rw [binary, h]
  rfl

theorem isNumeric_of_operator {w : StandardWord} {op : Binary64 → Binary64 → Binary64}
    (h : w.operator? = some op) : w.isNumeric := by
  cases w <;> simp only [operator?, reduceCtorEq] at h <;> rfl

/-- A numeric word looks at the top first, so it fails as soon as that is no number. -/
theorem perform_of_popNumber_error {w : StandardWord} {s : Stack} {e : Error}
    (hw : w.isNumeric) (h : w.popNumber s = .error e) : w.perform s = .error e := by
  cases w with
  | add => exact binary_of_error h _
  | subtract => exact binary_of_error h _
  | multiply => exact binary_of_error h _
  | divide => exact binary_of_error h _
  | sqrt =>
    change StandardWord.sqrt.unary Binary64.sqrt s = _
    rw [unary, h]
    rfl
  | dup => cases hw
  | drop => cases hw
  | swap => cases hw
  | «over» => cases hw

theorem performs_binary {w : StandardWord} {op : Binary64 → Binary64 → Binary64}
    (h : w.operator? = some op) (s : Stack) : w.Performs s (w.binary op s) := by
  have hsome : w.operator?.isSome := by rw [h]; rfl
  -- split in the order in which the word looks: the top, its kind, what lies below, its kind
  rcases s.eq_empty_or_push with rfl | ⟨s, y, rfl⟩
  · rw [binary_of_error (popNumber_empty w)]
    exact .empty fun hw => by rw [hw] at h; cases h
  · by_cases hy : y.tag = .number
    · obtain ⟨y, rfl⟩ := Value.exists_number hy
      rcases s.eq_empty_or_push with rfl | ⟨s, x, rfl⟩
      · rw [binary_push_number, popNumber_empty]
        exact .loneRight hsome
      · by_cases hx : x.tag = .number
        · obtain ⟨x, rfl⟩ := Value.exists_number hx
          rw [binary_push_push]
          exact .arithmetic h
        · rw [binary_push_number, popNumber_push_of_tag_ne hx]
          exact .badLeft hsome hx
    · rw [binary_of_error (popNumber_push_of_tag_ne hy w s)]
      exact .badTop (isNumeric_of_operator h) hy

theorem perform_drop_push (s : Stack) (v : Value) :
    StandardWord.drop.perform (s.push v) = .ok s := by
  change ((s.push v).pop >>= _) = _
  rw [Stack.pop_push]
  rfl

theorem perform_swap_push_push (s : Stack) (u v : Value) :
    StandardWord.swap.perform ((s.push u).push v) = .ok ((s.push v).push u) := by
  change (((s.push u).push v).pop >>= _) = _
  rw [Stack.pop_push]
  change ((s.push u).pop >>= _) = _
  rw [Stack.pop_push]
  rfl

theorem perform_over_push_push (s : Stack) (u v : Value) :
    StandardWord.over.perform ((s.push u).push v) = .ok (((s.push u).push v).push u) := by
  change (((s.push u).push v).peek 1 >>= _) = _
  rw [Stack.peek_eq, Stack.toTopFirst_push, Stack.toTopFirst_push]
  rfl

theorem perform_over_of_depth_lt {s : Stack} (h : s.depth < 2) :
    StandardWord.over.perform s = .error (.stackUnderflow 2 s.depth) := by
  change (s.peek 1 >>= _) = _
  rw [Stack.peek_eq_error_iff.mpr ⟨Nat.le_of_lt_succ h, rfl⟩]
  rfl

/-- A word does what one of its cases says. -/
theorem performs_perform (w : StandardWord) (s : Stack) : w.Performs s (w.perform s) := by
  cases w with
  | add => exact performs_binary rfl s
  | subtract => exact performs_binary rfl s
  | multiply => exact performs_binary rfl s
  | divide => exact performs_binary rfl s
  | sqrt =>
    change StandardWord.sqrt.Performs s (StandardWord.sqrt.unary Binary64.sqrt s)
    rcases s.eq_empty_or_push with rfl | ⟨s, x, rfl⟩
    · exact .empty (by decide)
    · by_cases hx : x.tag = .number
      · obtain ⟨x, rfl⟩ := Value.exists_number hx
        rw [unary_push]
        exact .sqrt
      · rw [unary, popNumber_push_of_tag_ne hx]
        exact .badTop rfl hx
  | dup =>
    rcases s.eq_empty_or_push with rfl | ⟨s, v, rfl⟩
    · exact .empty (by decide)
    · rw [perform_dup_push]
      exact .dup
  | drop =>
    rcases s.eq_empty_or_push with rfl | ⟨s, v, rfl⟩
    · exact .empty (by decide)
    · rw [perform_drop_push]
      exact .drop
  | swap =>
    rcases s.eq_empty_or_push with rfl | ⟨s, v, rfl⟩
    · exact .empty (by decide)
    · rcases s.eq_empty_or_push with rfl | ⟨s, u, rfl⟩
      · exact .loneSwap
      · rw [perform_swap_push_push]
        exact .swap
  | «over» =>
    rcases Nat.lt_or_ge s.depth 2 with hs | hs
    · rw [perform_over_of_depth_lt hs]
      exact .shortOver hs
    · obtain ⟨t, u, v, rfl⟩ := s.exists_push_push hs
      rw [perform_over_push_push]
      exact .over

/-- The cases of a word are what it does. -/
theorem perform_eq_iff {w : StandardWord} {s : Stack} {r : Except Error Stack} :
    w.perform s = r ↔ w.Performs s r := by
  constructor
  · rintro rfl
    exact w.performs_perform s
  · intro h
    cases h with
    | arithmetic hop => rw [perform_of_operator hop, binary_push_push]
    | sqrt => exact unary_push _ _ _ _
    | dup => exact perform_dup_push _ _
    | drop => exact perform_drop_push _ _
    | swap => exact perform_swap_push_push _ _ _
    | «over» => exact perform_over_push_push _ _ _
    | badTop hw hv => exact perform_of_popNumber_error hw (popNumber_push_of_tag_ne hv _ _)
    | badLeft hw hv =>
      obtain ⟨op, hop⟩ := Option.isSome_iff_exists.mp hw
      rw [perform_of_operator hop, binary_push_number, popNumber_push_of_tag_ne hv]
      rfl
    | empty hw =>
      cases w with
      | «over» => exact absurd rfl hw
      | _ => rfl
    | loneRight hw =>
      obtain ⟨op, hop⟩ := Option.isSome_iff_exists.mp hw
      rw [perform_of_operator hop, binary_push_number, popNumber_empty]
      rfl
    | loneSwap => rfl
    | shortOver hs => exact perform_over_of_depth_lt hs

/-- A word fails for want of operands or because of a wrong one. -/
theorem Performs.kind_error {w : StandardWord} {s : Stack} {e : Error}
    (h : w.Performs s (.error e)) : e.kind = .stackUnderflow ∨ e.kind = .typeMismatch := by
  cases h with
  | badTop _ _ => exact Or.inr rfl
  | badLeft _ _ => exact Or.inr rfl
  | empty _ => exact Or.inl rfl
  | loneRight _ => exact Or.inl rfl
  | loneSwap => exact Or.inl rfl
  | shortOver _ => exact Or.inl rfl

end StandardWord

/-! ## Standard primitives -/

/-- A primitive whose operation is a standard word. -/
def Primitive.IsStandard (p : Primitive) : Prop :=
  ∃ word serial, p.operation = .standard word serial

/-- Instructions among which every primitive is standard. -/
def EmbedStandard (instructions : List Value) : Prop :=
  ∀ p, Value.primitive p ∈ instructions → p.IsStandard

/-- An environment in which every primitive is standard; other values may be bound at will. -/
def Environment.BindsStandard (e : Environment) : Prop :=
  ∀ symbol p, e.find? symbol = some (.primitive p) → p.IsStandard

theorem Environment.BindsStandard.defineWords {e : Environment} (h : e.BindsStandard)
    (words : List StandardWord) (serial : Nat) : (e.defineWords words serial).BindsStandard := by
  induction words generalizing e with
  | nil => exact h
  | cons w rest ih =>
    refine ih (e := e.define w.name (.primitive (w.primitive serial))) fun symbol p hf => ?_
    rw [find?_define] at hf
    split at hf
    · cases hf
      exact ⟨w, serial, rfl⟩
    · exact h symbol p hf

theorem Environment.bindsStandard_standard : Environment.standard.BindsStandard := by
  have hempty : Environment.empty.BindsStandard := by
    intro symbol p h
    cases h
  exact ((hempty.defineWords WordGroup.arithmetic.words 0).defineWords WordGroup.math.words
    1).defineWords WordGroup.stackWords.words 2

theorem EmbedStandard.mono {l l' : List Value} (h : EmbedStandard l) (hsub : ∀ v ∈ l', v ∈ l) :
    EmbedStandard l' :=
  fun p hmem => h p (hsub _ hmem)

theorem EmbedStandard.head {instruction : Value} {rest : List Value}
    (h : EmbedStandard (instruction :: rest)) : EmbedStandard [instruction] :=
  h.mono fun v hv => by rw [List.mem_singleton.mp hv]; exact List.mem_cons_self

theorem EmbedStandard.tail {instruction : Value} {rest : List Value}
    (h : EmbedStandard (instruction :: rest)) : EmbedStandard rest :=
  h.mono fun _ hv => List.mem_cons_of_mem _ hv

theorem EmbedStandard.drop {l : List Value} (h : EmbedStandard l) (k : Nat) :
    EmbedStandard (l.drop k) :=
  h.mono fun _ hv => List.mem_of_mem_drop hv

namespace Primitive

variable {p : Primitive} {word : StandardWord} {serial : Nat} {host : Host} {s s' : Stack}

theorem apply_of_standard (h : p.operation = .standard word serial) :
    p.apply host s = (Outcome.ofExcept (word.perform s)).mapError (Error.blame p.name) := by
  rw [apply, h]
  rfl

theorem apply_eq_done_iff (h : p.operation = .standard word serial) :
    p.apply host s = .done s' ↔ word.Performs s (.ok s') := by
  rw [apply_of_standard h, ← StandardWord.perform_eq_iff]
  cases word.perform s <;> simp [Outcome.ofExcept, Outcome.mapError]

theorem apply_eq_failed_iff {e : Error} (h : p.operation = .standard word serial) :
    p.apply host s = .failed e ↔ ∃ cause, word.Performs s (.error cause) ∧ cause.blame p.name = e := by
  simp only [apply_of_standard h, ← StandardWord.perform_eq_iff]
  cases word.perform s <;> simp [Outcome.ofExcept, Outcome.mapError]

theorem IsStandard.apply_ne_aborted (h : p.IsStandard) (r : Abort) :
    p.apply host s ≠ .aborted r := by
  obtain ⟨word, serial, hop⟩ := h
  rw [apply_of_standard hop]
  cases word.perform s <;> simp [Outcome.ofExcept, Outcome.mapError]

end Primitive

namespace Machine

theorem Denotes.isStandard {m : Machine} {instruction : Value} {p : Primitive}
    (hd : m.Denotes instruction (.primitive p)) (he : m.environment.BindsStandard)
    (hi : EmbedStandard [instruction]) : p.IsStandard := by
  cases hd with
  | bound hf => exact he _ p hf
  | literal _ => exact hi p List.mem_cons_self

theorem step_ne_aborted {m : Machine} {instruction : Value} (he : m.environment.BindsStandard)
    (hi : EmbedStandard [instruction]) (s : Stack) (r : Abort) :
    m.step instruction s ≠ .aborted r := by
  intro h
  rcases m.denotes_cases instruction with ⟨p, hd⟩ | ⟨v, hd, hv⟩ | ⟨symbol, rfl, hf⟩
  · rw [step_of_denotes hd] at h
    exact (hd.isStandard he hi).apply_ne_aborted r h
  · rw [step_of_denotes hd, execute_of_tag_ne hv] at h
    cases h
  · rw [step_of_unbound hf] at h
    cases h

/-- Runs of standard primitives come back, with a stack or with a failure. -/
theorem runList_ne_aborted {m : Machine} {instructions : List Value}
    (he : m.environment.BindsStandard) (hi : EmbedStandard instructions) (pc : Nat) (s : Stack)
    (r : Abort) : m.runList instructions pc s ≠ .aborted r := by
  intro h
  induction instructions generalizing pc s with
  | nil => cases h
  | cons instruction rest ih =>
    rw [runList] at h
    cases hs : m.step instruction s with
    | done s' => rw [hs] at h; exact ih hi.tail (pc + 1) s' h
    | failed e => rw [hs] at h; cases h
    | aborted r' => exact step_ne_aborted he hi.head s r' hs

end Machine
end WordMachine
