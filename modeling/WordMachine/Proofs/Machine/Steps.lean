import WordMachine.Machine

/-!
# Steps as relations

`Machine.step` is a function with three kinds of outcome. Here the two kinds that a program can
meet are given as relations, one constructor for each way in which they come about: a step
**advances** by pushing what its instruction denotes or by a primitive that returns a stack, and it
**halts** on a word without a binding or on a primitive that fails. Nothing else happens
(`step_eq_done_iff`, `step_eq_failed_iff`), so a statement about runs can be proved by cases on the
relations without opening the machine again.

`Executes` is the relation for several instructions in order, all of which advance; a run that is
done is exactly that (`runList_eq_done_iff`), and a run that failed is that up to one instruction
which halts (`runList_eq_failed_iff`).
-/

set_option autoImplicit false

namespace WordMachine
namespace Machine

/-- What an instruction denotes: a word denotes the value it is bound to, once, and every other
value denotes itself. -/
inductive Denotes (m : Machine) : Value → Value → Prop
  | bound {symbol : Text} {v : Value} :
      m.environment.find? symbol = some v → Denotes m (.word symbol) v
  | literal {v : Value} : v.tag ≠ .word → Denotes m v v

/-- A step that succeeds. -/
inductive Advances (m : Machine) : Value → Stack → Stack → Prop
  | push {instruction v : Value} {s : Stack} :
      m.Denotes instruction v → v.tag ≠ .primitive → Advances m instruction s (s.push v)
  | apply {instruction : Value} {p : Primitive} {s s' : Stack} :
      m.Denotes instruction (.primitive p) → p.apply m.host s = .done s' →
      Advances m instruction s s'

/-- A step that fails. -/
inductive Halts (m : Machine) : Value → Stack → Error → Prop
  | unbound {symbol : Text} {s : Stack} :
      m.environment.find? symbol = none → Halts m (.word symbol) s (.unboundWord symbol)
  | apply {instruction : Value} {p : Primitive} {s : Stack} {e : Error} :
      m.Denotes instruction (.primitive p) → p.apply m.host s = .failed e →
      Halts m instruction s e

/-- Instructions executed in order, each of which succeeds. -/
inductive Executes (m : Machine) : List Value → Stack → Stack → Prop
  | nil {s : Stack} : Executes m [] s s
  | cons {instruction : Value} {rest : List Value} {s s' t : Stack} :
      m.Advances instruction s s' → Executes m rest s' t → Executes m (instruction :: rest) s t

/-! ## One step -/

theorem resolve_eq_ok_iff {m : Machine} {instruction v : Value} :
    m.resolve instruction = .ok v ↔ m.Denotes instruction v := by
  constructor
  · intro h
    cases instruction with
    | word symbol => exact .bound (Environment.lookup_eq_ok_iff.mp h)
    | number x => cases h; exact .literal (by simp [Value.tag])
    | string content => cases h; exact .literal (by simp [Value.tag])
    | primitive p => cases h; exact .literal (by simp [Value.tag])
  · intro h
    cases h with
    | bound hf => exact Environment.lookup_eq_ok_iff.mpr hf
    | literal htag =>
      cases instruction with
      | word symbol => exact absurd rfl htag
      | number x => rfl
      | string content => rfl
      | primitive p => rfl

theorem resolve_eq_error_iff {m : Machine} {instruction : Value} {e : Error} :
    m.resolve instruction = .error e ↔
      ∃ symbol, instruction = .word symbol ∧ m.environment.find? symbol = none ∧
        e = .unboundWord symbol := by
  constructor
  · intro h
    cases instruction with
    | word symbol =>
      obtain ⟨hf, he⟩ := Environment.lookup_eq_error_iff.mp h
      exact ⟨symbol, rfl, hf, he⟩
    | number x => cases h
    | string content => cases h
    | primitive p => cases h
  · rintro ⟨symbol, rfl, hf, he⟩
    exact Environment.lookup_eq_error_iff.mpr ⟨hf, he⟩

/-- Whatever is not a primitive is pushed. -/
theorem execute_of_tag_ne {m : Machine} {v : Value} (h : v.tag ≠ .primitive) (s : Stack) :
    m.execute v s = .done (s.push v) := by
  cases v with
  | primitive p => exact absurd rfl h
  | number x => rfl
  | string content => rfl
  | word symbol => rfl

/-- A step is the execution of what its instruction denotes. -/
theorem step_of_denotes {m : Machine} {instruction v : Value} (h : m.Denotes instruction v)
    (s : Stack) : m.step instruction s = m.execute v s := by
  rw [step, resolve_eq_ok_iff.mpr h]

theorem step_of_unbound {m : Machine} {symbol : Text} (h : m.environment.find? symbol = none)
    (s : Stack) : m.step (.word symbol) s = .failed (.unboundWord symbol) := by
  rw [step, resolve_eq_error_iff.mpr ⟨symbol, rfl, h, rfl⟩]

/-- The three kinds of instruction: one that denotes a primitive, one that denotes another value,
and a word without a binding. -/
theorem denotes_cases (m : Machine) (instruction : Value) :
    (∃ p, m.Denotes instruction (.primitive p)) ∨
      (∃ v, m.Denotes instruction v ∧ v.tag ≠ .primitive) ∨
      ∃ symbol, instruction = .word symbol ∧ m.environment.find? symbol = none := by
  cases hr : m.resolve instruction with
  | ok v =>
    have hd := resolve_eq_ok_iff.mp hr
    cases v with
    | primitive p => exact Or.inl ⟨p, hd⟩
    | number x => exact Or.inr (Or.inl ⟨_, hd, by simp [Value.tag]⟩)
    | string content => exact Or.inr (Or.inl ⟨_, hd, by simp [Value.tag]⟩)
    | word symbol => exact Or.inr (Or.inl ⟨_, hd, by simp [Value.tag]⟩)
  | error e =>
    obtain ⟨symbol, hi, hf, -⟩ := resolve_eq_error_iff.mp hr
    exact Or.inr (Or.inr ⟨symbol, hi, hf⟩)

theorem step_eq_done_iff {m : Machine} {instruction : Value} {s s' : Stack} :
    m.step instruction s = .done s' ↔ m.Advances instruction s s' := by
  constructor
  · intro h
    rcases m.denotes_cases instruction with ⟨p, hd⟩ | ⟨v, hd, hv⟩ | ⟨symbol, rfl, hf⟩
    · rw [step_of_denotes hd] at h
      exact .apply hd h
    · rw [step_of_denotes hd, execute_of_tag_ne hv] at h
      cases h
      exact .push hd hv
    · rw [step_of_unbound hf] at h
      cases h
  · intro h
    cases h with
    | push hd hv => rw [step_of_denotes hd, execute_of_tag_ne hv]
    | apply hd ha => rw [step_of_denotes hd]; exact ha

theorem step_eq_failed_iff {m : Machine} {instruction : Value} {s : Stack} {e : Error} :
    m.step instruction s = .failed e ↔ m.Halts instruction s e := by
  constructor
  · intro h
    rcases m.denotes_cases instruction with ⟨p, hd⟩ | ⟨v, hd, hv⟩ | ⟨symbol, rfl, hf⟩
    · rw [step_of_denotes hd] at h
      exact .apply hd h
    · rw [step_of_denotes hd, execute_of_tag_ne hv] at h
      cases h
    · rw [step_of_unbound hf] at h
      cases h
      exact .unbound hf
  · intro h
    cases h with
    | unbound hf => exact step_of_unbound hf _
    | apply hd ha => rw [step_of_denotes hd]; exact ha

/-! ## Several steps -/

theorem runList_eq_done_iff {m : Machine} {instructions : List Value} {pc : Nat} {s t : Stack} :
    m.runList instructions pc s = .done t ↔ m.Executes instructions s t := by
  constructor
  · intro h
    induction instructions generalizing pc s with
    | nil => cases h; exact .nil
    | cons instruction rest ih =>
      rw [runList] at h
      cases hs : m.step instruction s with
      | done s' => rw [hs] at h; exact .cons (step_eq_done_iff.mp hs) (ih h)
      | failed e => rw [hs] at h; cases h
      | aborted r => rw [hs] at h; cases h
  · intro h
    induction h generalizing pc with
    | nil => rfl
    | cons ha _ ih => rw [runList_cons_of_done (step_eq_done_iff.mpr ha)]; exact ih

theorem Executes.append {m : Machine} {first second : List Value} {s t u : Stack}
    (h₁ : m.Executes first s t) (h₂ : m.Executes second t u) :
    m.Executes (first ++ second) s u := by
  induction h₁ with
  | nil => exact h₂
  | cons ha _ ih => exact .cons ha (ih h₂)

/-- **A run fails at its first instruction that halts.** The error, the position and the stack of
the failure are those of that step, and the stack is the one that the instructions before it
left. -/
theorem runList_eq_failed_iff {m : Machine} {instructions : List Value} {pc k : Nat}
    {s t : Stack} {e : Error} :
    m.runList instructions pc s = .failed ⟨e, k, t⟩ ↔
      ∃ before instruction after, instructions = before ++ instruction :: after ∧
        k = pc + before.length ∧ m.Executes before s t ∧ m.Halts instruction t e := by
  constructor
  · intro h
    induction instructions generalizing pc s with
    | nil => cases h
    | cons instruction rest ih =>
      rw [runList] at h
      cases hs : m.step instruction s with
      | done s' =>
        rw [hs] at h
        -- the run fails further on; this instruction joins those that succeeded before it
        obtain ⟨before, i, after, rfl, rfl, hx, hh⟩ := ih h
        refine ⟨instruction :: before, i, after, rfl, ?_, .cons (step_eq_done_iff.mp hs) hx, hh⟩
        rw [List.length_cons]; omega
      | failed e' =>
        rw [hs] at h
        cases h
        exact ⟨[], instruction, rest, rfl, rfl, .nil, step_eq_failed_iff.mp hs⟩
      | aborted r => rw [hs] at h; cases h
  · rintro ⟨before, instruction, after, rfl, rfl, hx, hh⟩
    rw [runList_append, runList_eq_done_iff.mpr hx]
    exact runList_cons_of_failed (step_eq_failed_iff.mpr hh) after _

/-! ## Machines that agree

Execution consults the environment at the words among its own instructions and nowhere else. -/

/-- Two environments bind the words among some instructions alike. -/
def AgreeOn (instructions : List Value) (a b : Environment) : Prop :=
  ∀ symbol, Value.word symbol ∈ instructions → a.lookup symbol = b.lookup symbol

theorem Denotes.congr {a b : Environment} {host : Host} {instruction v : Value}
    (h : AgreeOn [instruction] a b) (hd : Denotes ⟨a, host⟩ instruction v) :
    Denotes ⟨b, host⟩ instruction v := by
  cases hd with
  | bound hf =>
    -- the one place where the environment is consulted
    have hab := Environment.lookup_eq_lookup_iff.mp (h _ List.mem_cons_self)
    exact .bound (hab.symm.trans hf)
  | literal htag => exact .literal htag

theorem Advances.congr {a b : Environment} {host : Host} {instruction : Value} {s s' : Stack}
    (h : AgreeOn [instruction] a b) (ha : Advances ⟨a, host⟩ instruction s s') :
    Advances ⟨b, host⟩ instruction s s' := by
  cases ha with
  | push hd hv => exact .push (hd.congr h) hv
  | apply hd hp => exact .apply (hd.congr h) hp

theorem AgreeOn.mono {l l' : List Value} {a b : Environment} (h : AgreeOn l a b)
    (hsub : ∀ v ∈ l', v ∈ l) : AgreeOn l' a b :=
  fun symbol hmem => h symbol (hsub _ hmem)

/-- What succeeds in one environment succeeds, with the same result, in every other one that agrees
with it on the words executed. -/
theorem Executes.congr {a b : Environment} {host : Host} {instructions : List Value} {s t : Stack}
    (h : AgreeOn instructions a b) (hx : Executes ⟨a, host⟩ instructions s t) :
    Executes ⟨b, host⟩ instructions s t := by
  induction hx with
  | nil => exact .nil
  | cons ha _ ih =>
    refine .cons (ha.congr (h.mono fun v hv => ?_)) (ih (h.mono fun v hv => ?_))
    · rw [List.mem_singleton.mp hv]; exact List.mem_cons_self
    · exact List.mem_cons_of_mem _ hv

end Machine
end WordMachine
