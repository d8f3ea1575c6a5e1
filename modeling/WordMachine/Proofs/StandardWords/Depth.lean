import Mathlib.Algebra.Ring.Int.Defs
import Mathlib.Data.Nat.Find
import WordMachine.Proofs.Machine.Resumption
import WordMachine.Proofs.StandardWords.Cases

/-!
# Counting in advance

A program of numbers and standard words, run on numbers, never meets a value of another kind. So the
depth of the stack is all that its course depends on, and the depth can be counted before the run:
each instruction **needs** so many values and **changes** the depth by so much, whatever the numbers
are. `level` is the depth predicted before a position. The prediction is exact both ways
(`run_follows_level`): the run is done if and only if every instruction finds as many values as it
needs, and otherwise it fails at the first one that does not.
-/

set_option autoImplicit false

namespace WordMachine

def Stack.Numeric (s : Stack) : Prop := ∀ v ∈ s.toTopFirst, v.tag = .number

@[simp] theorem Stack.numeric_push {s : Stack} {v : Value} :
    (s.push v).Numeric ↔ v.tag = .number ∧ s.Numeric := by
  simp [Numeric]

namespace StandardWord

/-- How many values a word takes or looks at. -/
def need : StandardWord → Nat
  | .add | .subtract | .multiply | .divide | .swap | .over => 2
  | .sqrt | .dup | .drop => 1

/-- How much deeper a word leaves the stack. -/
def effect : StandardWord → Int
  | .add | .subtract | .multiply | .divide | .drop => -1
  | .sqrt | .swap => 0
  | .dup | .over => 1

theorem need_pos (w : StandardWord) : 0 < w.need := by cases w <;> decide

theorem need_of_operator {w : StandardWord} (h : w.operator?.isSome) : w.need = 2 := by
  cases w with
  | sqrt | dup | drop => cases h
  | _ => rfl

theorem effect_of_operator {w : StandardWord} (h : w.operator?.isSome) : w.effect = -1 := by
  cases w with
  | sqrt | dup | swap | «over» => cases h
  | _ => rfl

/-- A word that succeeds on numbers found what it needs, and leaves numbers. -/
theorem Performs.numeric_ok {w : StandardWord} {s s' : Stack} (h : w.Performs s (.ok s'))
    (hs : s.Numeric) :
    w.need ≤ s.depth ∧ s'.Numeric ∧ (s'.depth : Int) = s.depth + w.effect := by
  cases h with
  | arithmetic hop =>
    have hsome : w.operator?.isSome := by rw [hop]; rfl
    rw [need_of_operator hsome, effect_of_operator hsome]
    simp only [Stack.numeric_push, Stack.depth_push] at hs ⊢
    exact ⟨by omega, ⟨rfl, hs.2.2⟩, by omega⟩
  | sqrt =>
    simp only [Stack.numeric_push, Stack.depth_push, need, effect] at hs ⊢
    exact ⟨by omega, ⟨rfl, hs.2⟩, by omega⟩
  | dup =>
    simp only [Stack.numeric_push, Stack.depth_push, need, effect] at hs ⊢
    exact ⟨by omega, ⟨hs.1, hs⟩, by omega⟩
  | drop =>
    simp only [Stack.numeric_push, Stack.depth_push, need, effect] at hs ⊢
    exact ⟨by omega, hs.2, by omega⟩
  | swap =>
    simp only [Stack.numeric_push, Stack.depth_push, need, effect] at hs ⊢
    exact ⟨by omega, ⟨hs.2.1, hs.1, hs.2.2⟩, by omega⟩
  | «over» =>
    simp only [Stack.numeric_push, Stack.depth_push, need, effect] at hs ⊢
    exact ⟨by omega, ⟨hs.2.1, hs⟩, by omega⟩

/-- A word that fails on numbers did not find what it needs. -/
theorem Performs.numeric_error {w : StandardWord} {s : Stack} {e : Error}
    (h : w.Performs s (.error e)) (hs : s.Numeric) :
    s.depth < w.need ∧ e.kind = .stackUnderflow := by
  cases h with
  | badTop _ hv => exact absurd (Stack.numeric_push.mp hs).1 hv
  | badLeft _ hv => exact absurd (Stack.numeric_push.mp (Stack.numeric_push.mp hs).2).1 hv
  | empty _ => exact ⟨w.need_pos, rfl⟩
  | loneRight hw => rw [need_of_operator hw, Stack.depth_push]; exact ⟨by decide, rfl⟩
  | loneSwap => rw [Stack.depth_push]; exact ⟨by decide, rfl⟩
  | shortOver hd => exact ⟨hd, rfl⟩

end StandardWord

/-! ## Instructions and levels -/

/-- An instruction whose demand on the stack is known: a number, or the name of a standard word. -/
inductive Elementary where
  | number (x : Binary64)
  | word (w : StandardWord)
deriving DecidableEq

namespace Elementary

def instruction : Elementary → Value
  | .number x => .number x
  | .word w => .word w.name

def need : Elementary → Nat
  | .number _ => 0
  | .word w => w.need

def effect : Elementary → Int
  | .number _ => 1
  | .word w => w.effect

def program (code : List Elementary) : Program := ⟨code.map instruction⟩

/-- The depth predicted before position `k`, for a run from position `pc` at the given depth. -/
def level (code : List Elementary) (pc depth k : Nat) : Int :=
  depth + (((code.drop pc).take (k - pc)).map effect).sum

/-- The instruction at position `k`, if there is one, finds as many values as it needs. -/
def Suffices (code : List Elementary) (pc depth k : Nat) : Prop :=
  ∀ i, code[k]? = some i → (i.need : Int) ≤ level code pc depth k

/-- Position `k` is the first from `pc` on that does not suffice. -/
def FirstShort (code : List Elementary) (pc depth k : Nat) : Prop :=
  pc ≤ k ∧ ¬Suffices code pc depth k ∧ ∀ j, pc ≤ j → j < k → Suffices code pc depth j

theorem exists_firstShort {code : List Elementary} {pc depth : Nat}
    (h : ¬∀ k, pc ≤ k → Suffices code pc depth k) : ∃ k, FirstShort code pc depth k := by
  classical
  have hex : ∃ k, pc ≤ k ∧ ¬Suffices code pc depth k := by
    obtain ⟨k, hk⟩ := Classical.not_forall.mp h
    exact ⟨k, Classical.not_imp.mp hk⟩
  refine ⟨Nat.find hex, (Nat.find_spec hex).1, (Nat.find_spec hex).2, fun j hj hlt => ?_⟩
  exact Classical.not_not.mp fun hn => Nat.find_min hex hlt ⟨hj, hn⟩

end Elementary

namespace Machine

open Elementary

variable (host : Host) {s : Stack}

/-- An instruction that finds what it needs changes the depth as predicted. -/
theorem advances_elementary {i : Elementary} (hs : s.Numeric) (h : i.need ≤ s.depth) :
    ∃ t, Advances ⟨.standard, host⟩ i.instruction s t ∧ t.Numeric ∧
      (t.depth : Int) = s.depth + i.effect := by
  cases i with
  | number x =>
    refine ⟨s.push (.number x), advances_number _ x s, Stack.numeric_push.mpr ⟨rfl, hs⟩, ?_⟩
    simp only [Stack.depth_push, effect]
    omega
  | word w =>
    cases hw : w.perform s with
    | ok t =>
      obtain ⟨-, ht⟩ := (StandardWord.perform_eq_iff.mp hw).numeric_ok hs
      exact ⟨t, advances_standard hw, ht⟩
    | error e =>
      obtain ⟨hlt, -⟩ := (StandardWord.perform_eq_iff.mp hw).numeric_error hs
      exact absurd h (Nat.not_le.mpr hlt)

/-- An instruction that does not is a word, and is blamed for it. -/
theorem halts_elementary {i : Elementary} (hs : s.Numeric) (h : s.depth < i.need) :
    ∃ w e, i = .word w ∧ Halts ⟨.standard, host⟩ i.instruction s e ∧ e.kind = .arityMismatch ∧
      e.symbol = w.name := by
  cases i with
  | number x => exact absurd h (Nat.not_lt_zero _)
  | word w =>
    cases hw : w.perform s with
    | ok t =>
      obtain ⟨hle, -⟩ := (StandardWord.perform_eq_iff.mp hw).numeric_ok hs
      exact absurd h (Nat.not_lt.mpr hle)
    | error e =>
      obtain ⟨-, hk⟩ := (StandardWord.perform_eq_iff.mp hw).numeric_error hs
      have happly : (w.primitive w.batch).apply host s = .failed (e.blame w.name) :=
        (Primitive.apply_eq_failed_iff rfl).mpr ⟨e, StandardWord.perform_eq_iff.mp hw, rfl⟩
      refine ⟨w, e.blame w.name, rfl, .apply (.bound (Environment.find?_standard w)) happly, ?_⟩
      rw [Error.blame_of_underflow hk]
      exact ⟨rfl, rfl⟩

/-- Instructions all of which find what they need succeed, and change the depth as predicted. -/
theorem executes_elementary {code : List Elementary} (hs : s.Numeric)
    (h : ∀ j i, code[j]? = some i → (i.need : Int) ≤ s.depth + ((code.take j).map effect).sum) :
    ∃ t, Executes ⟨.standard, host⟩ (code.map instruction) s t ∧ t.Numeric ∧
      (t.depth : Int) = s.depth + (code.map effect).sum := by
  induction code generalizing s with
  | nil => exact ⟨s, .nil, hs, by simp⟩
  | cons i rest ih =>
    have hi := h 0 i rfl
    simp only [List.take_zero, List.map_nil, List.sum_nil] at hi
    obtain ⟨s', ha, hs', hd'⟩ := advances_elementary host (i := i) hs (by omega)
    obtain ⟨t, hx, ht, hd⟩ := ih hs' fun j i' hj => by
      have := h (j + 1) i' hj
      simp only [List.take_succ_cons, List.map_cons, List.sum_cons] at this
      omega
    refine ⟨t, .cons ha hx, ht, ?_⟩
    simp only [List.map_cons, List.sum_cons]
    omega

theorem segment_program (code : List Elementary) (pc k : Nat) :
    (program code).segment pc k = ((code.drop pc).take (k - pc)).map instruction := by
  simp only [program, Program.segment, List.map_take, List.map_drop]

/-- Up to a position before which everything suffices, the run goes through, and gets to that
position at the level predicted for it. -/
theorem executes_to_level {code : List Elementary} {pc k : Nat} (hs : s.Numeric)
    (h : ∀ j, pc ≤ j → j < k → Suffices code pc s.depth j) :
    ∃ t, Executes ⟨.standard, host⟩ ((program code).segment pc k) s t ∧ t.Numeric ∧
      (t.depth : Int) = level code pc s.depth k := by
  rw [segment_program]
  refine executes_elementary host hs fun j i hj => ?_
  -- position `j` of the segment is position `pc + j` of the program
  rw [List.getElem?_take] at hj
  split at hj
  · rename_i hlt
    rw [List.getElem?_drop] at hj
    have hneed := h (pc + j) (Nat.le_add_right _ _) (by omega) i hj
    rw [level, Nat.add_sub_cancel_left] at hneed
    rw [List.take_take, Nat.min_eq_left (Nat.le_of_lt hlt)]
    exact hneed
  · cases hj

/-- If everything suffices, the run is done, at the level predicted for the end. -/
theorem run_done_of_suffices {code : List Elementary} {pc : Nat} (hs : s.Numeric)
    (h : ∀ k, pc ≤ k → Suffices code pc s.depth k) :
    ∃ t, (Machine.mk .standard host).run (program code) pc s = .done t ∧ t.Numeric ∧
      (t.depth : Int) = level code pc s.depth (max pc code.length) := by
  obtain ⟨t, hx, ht⟩ := executes_to_level host (k := max pc code.length) hs fun j hj _ => h j hj
  refine ⟨t, ?_, ht⟩
  -- `pc` may lie beyond the end, hence the maximum
  have hsegment : (program code).segment pc (max pc code.length)
      = (program code).instructions.drop pc := by
    rw [Program.segment]
    refine List.take_of_length_le ?_
    simp only [program, List.length_drop, List.length_map]
    omega
  rw [hsegment] at hx
  exact runList_eq_done_iff.mpr hx

/-- At the first position that does not suffice, the run fails, at the level predicted for it. -/
theorem run_failed_of_firstShort {code : List Elementary} {pc k : Nat} (hs : s.Numeric)
    (h : FirstShort code pc s.depth k) :
    ∃ w e t, code[k]? = some (.word w) ∧ e.kind = .arityMismatch ∧ e.symbol = w.name ∧
      (Machine.mk .standard host).run (program code) pc s = .failed ⟨e, k, t⟩ ∧ t.Numeric ∧
      (t.depth : Int) = level code pc s.depth k := by
  obtain ⟨hle, hk, hbefore⟩ := h
  obtain ⟨t, hx, ht, hd⟩ := executes_to_level host hs hbefore
  obtain ⟨i, hi, hshort⟩ : ∃ i, code[k]? = some i ∧ t.depth < i.need := by
    obtain ⟨i, hi⟩ := Classical.not_forall.mp hk
    obtain ⟨hi, hlt⟩ := Classical.not_imp.mp hi
    exact ⟨i, hi, by omega⟩
  obtain ⟨w, e, rfl, hh, hkind, hsymbol⟩ := halts_elementary host ht hshort
  have hfetch : (program code).fetch k = .ok (Elementary.word w).instruction := by
    rw [Program.fetch_eq_ok_iff, program, List.getElem?_map, hi]
    rfl
  refine ⟨w, e, t, hi, hkind, hsymbol, run_eq_failed_iff.mpr ⟨hle, ?_, hx, _, hfetch, hh⟩, ht, hd⟩
  exact Program.lt_size_of_fetch hfetch

/-- **Counting decides.** On numbers, a program of numbers and standard words is done if and only if
every instruction from its start on finds as many values as it needs at the level predicted for it,
and then it leaves as many numbers as predicted for its end. Otherwise it fails at the first
instruction that does not. That is a word; it is blamed, by its name, for having too few operands;
and the stack of the failure holds as many numbers as predicted for that position. -/
theorem run_follows_level (host : Host) (code : List Elementary) (pc : Nat) (s : Stack)
    (hs : s.Numeric) :
    ((∃ t, (Machine.mk .standard host).run (program code) pc s = .done t) ↔
      ∀ k, pc ≤ k → Suffices code pc s.depth k) ∧
    (∀ t, (Machine.mk .standard host).run (program code) pc s = .done t →
      t.Numeric ∧ (t.depth : Int) = level code pc s.depth (max pc code.length)) ∧
    ((¬∀ k, pc ≤ k → Suffices code pc s.depth k) →
      ∃ k w e t, FirstShort code pc s.depth k ∧
        code[k]? = some (.word w) ∧ e.kind = .arityMismatch ∧ e.symbol = w.name ∧
        (Machine.mk .standard host).run (program code) pc s = .failed ⟨e, k, t⟩ ∧
        t.Numeric ∧ (t.depth : Int) = level code pc s.depth k) := by
  by_cases hall : ∀ k, pc ≤ k → Suffices code pc s.depth k
  · obtain ⟨t, hrun, ht⟩ := run_done_of_suffices host hs hall
    refine ⟨⟨fun _ => hall, fun _ => ⟨t, hrun⟩⟩, fun t' h => ?_, fun h => absurd hall h⟩
    rw [hrun] at h
    cases h
    exact ht
  · obtain ⟨k, hfirst⟩ := exists_firstShort hall
    obtain ⟨w, e, t, hi, hkind, hsymbol, hrun, ht⟩ := run_failed_of_firstShort host hs hfirst
    refine ⟨⟨?_, fun h => absurd h hall⟩, ?_, ?_⟩
    · rintro ⟨t', h⟩
      rw [hrun] at h
      cases h
    · intro t' h
      rw [hrun] at h
      cases h
    · intro _
      exact ⟨k, w, e, t, hfirst, hi, hkind, hsymbol, hrun, ht⟩

/-- The sum of two numbers leaves one, and then there is no second to copy. The run starts after an
instruction that takes a number away. -/
theorem run_follows_level_sum_over :
    (Stack.ofList [.number (.ofNat 1), .number (.ofNat 2)]).Numeric ∧
    ∃ k w e t, FirstShort [.word .drop, .word .add, .word .over] 1 2 k ∧
      ([.word .drop, .word .add, .word .over] : List Elementary)[k]? = some (.word w) ∧
      e.kind = .arityMismatch ∧ e.symbol = w.name ∧
      (Machine.mk .standard .none).run (program [.word .drop, .word .add, .word .over]) 1
        (.ofList [.number (.ofNat 1), .number (.ofNat 2)]) = .failed ⟨e, k, t⟩ ∧
      t.Numeric ∧ (t.depth : Int) = level [.word .drop, .word .add, .word .over] 1 2 k := by
  have hs : (Stack.ofList [.number (.ofNat 1), .number (.ofNat 2)]).Numeric := by
    intro v hv
    have hv : v = .number (.ofNat 2) ∨ v = .number (.ofNat 1) := by
      simpa [Stack.toTopFirst, Stack.toList, Stack.ofList] using hv
    rcases hv with rfl | rfl <;> rfl
  refine ⟨hs, (run_follows_level .none _ 1 _ hs).2.2 ?_⟩
  intro h
  exact absurd (h 2 (by decide) (.word .over) rfl) (by decide)

end Machine
end WordMachine
