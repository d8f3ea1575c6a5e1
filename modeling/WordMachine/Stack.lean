import WordMachine.Value

/-!
# Stacks

The operand stack. Every read beyond the bottom is an underflow that names the depth asked for and
the depth there is. Positions count from the top, and are machine words: the depth named for
position `i` is `i + 1` in that arithmetic.

A stack is stored bottom first, which is also the order in which it is shown; `toTopFirst` is the
same stack with the top at the head of a list.
-/

set_option autoImplicit false

namespace WordMachine

/-- A stack of values, bottom first. -/
structure Stack where
  items : Array Value
deriving DecidableEq

namespace Stack

/-- The empty stack. -/
def empty : Stack := ⟨#[]⟩

/-- The stack of the given values, bottom first. -/
def ofList (values : List Value) : Stack := ⟨values.toArray⟩

/-- The values of a stack, bottom first. -/
def toList (s : Stack) : List Value := s.items.toList

/-- The values of a stack, top first. -/
def toTopFirst (s : Stack) : List Value := s.toList.reverse

/-- How many values a stack holds. -/
def depth (s : Stack) : Nat := s.items.size

/-- Whether a stack holds nothing. -/
def isEmpty (s : Stack) : Bool := s.items.isEmpty

/-- Puts a value on top. -/
def push (s : Stack) (v : Value) : Stack := ⟨s.items.push v⟩

/-- Takes the top value off. -/
def pop (s : Stack) : Except Error (Value × Stack) :=
  match s.items.back? with
  | some v => .ok (v, ⟨s.items.pop⟩)
  | none => .error (.stackUnderflow 1 0)

/-- The value at a position, the top being at zero. -/
def peek (s : Stack) (i : UInt64) : Except Error Value :=
  if h : i.toNat < s.items.size then
    have : s.items.size - 1 - i.toNat < s.items.size := by omega
    .ok s.items[s.items.size - 1 - i.toNat]
  else .error (.stackUnderflow (i + 1).toNat s.depth)

/-- The top value. -/
def top (s : Stack) : Except Error Value := s.peek 0

/-- The values of one stack on top of those of another. -/
def append (base s : Stack) : Stack := ⟨base.items ++ s.items⟩

instance : Append Stack := ⟨append⟩

/-- A stack as text: the values bottom first, between brackets. -/
def text (s : Stack) : Text :=
  Text.ofString "[" ++ Text.join (Text.ofString ", ") (s.toList.map Value.text)
    ++ Text.ofString "]"

/-- Stacks are compared value by value. -/
def agrees (a b : Stack) : Bool := a.items.isEqv b.items Value.agrees

/-! ## The view with the top at the head -/

theorem ext_toTopFirst {s t : Stack} (h : s.toTopFirst = t.toTopFirst) : s = t := by
  obtain ⟨⟨items⟩⟩ := s
  obtain ⟨⟨items'⟩⟩ := t
  simpa [toTopFirst, toList] using h

@[simp] theorem length_toTopFirst (s : Stack) : s.toTopFirst.length = s.depth := by
  simp [toTopFirst, toList, depth]

@[simp] theorem toTopFirst_empty : empty.toTopFirst = [] := rfl

@[simp] theorem toTopFirst_push (s : Stack) (v : Value) :
    (s.push v).toTopFirst = v :: s.toTopFirst := by
  simp [toTopFirst, toList, push]

@[simp] theorem toTopFirst_append (base s : Stack) :
    (base ++ s).toTopFirst = s.toTopFirst ++ base.toTopFirst := by
  change (base.append s).toTopFirst = _
  simp [toTopFirst, toList, append]

@[simp] theorem depth_empty : empty.depth = 0 := rfl

@[simp] theorem depth_push (s : Stack) (v : Value) : (s.push v).depth = s.depth + 1 := by
  simp [depth, push]

@[simp] theorem pop_push (s : Stack) (v : Value) : (s.push v).pop = .ok (v, s) := by
  simp [pop, push]

@[simp] theorem pop_empty : empty.pop = .error (.stackUnderflow 1 0) := rfl

/-- A stack is empty or has a top. -/
theorem eq_empty_or_push (s : Stack) : s = empty ∨ ∃ t v, s = push t v := by
  obtain ⟨items⟩ := s
  by_cases h : items = #[]
  · exact .inl (congrArg Stack.mk h)
  · obtain ⟨rest, v, h⟩ := Array.exists_push_of_ne_empty h
    exact .inr ⟨⟨rest⟩, v, congrArg Stack.mk h⟩

/-- Positions go up by one, except from the last that a machine word can name. -/
theorem toNat_add_one {i : UInt64} (h : i.toNat + 1 < UInt64.size) :
    (i + 1).toNat = i.toNat + 1 := by
  rw [UInt64.toNat_add]
  exact Nat.mod_eq_of_lt h

/-- Peeking reads the list with the top at its head. -/
theorem peek_eq (s : Stack) (i : UInt64) :
    s.peek i = match s.toTopFirst[i.toNat]? with
      | some v => .ok v
      | none => .error (.stackUnderflow (i + 1).toNat s.depth) := by
  unfold peek
  by_cases h : i.toNat < s.items.size
  · simp [h, toTopFirst, toList]
  · have hs : s.toTopFirst[i.toNat]? = none := by simpa [depth] using h
    rw [dif_neg h, hs]

@[simp] theorem top_push (s : Stack) (v : Value) : (s.push v).top = .ok v := by
  rw [top, peek_eq, toTopFirst_push]
  rfl

theorem peek_of_lt {s : Stack} {i : UInt64} (h : i.toNat < s.toTopFirst.length) :
    s.peek i = .ok s.toTopFirst[i.toNat] := by
  rw [peek_eq, List.getElem?_eq_getElem h]

theorem exists_peek_of_lt {s : Stack} {i : UInt64} (h : i.toNat < s.depth) :
    ∃ v, s.peek i = .ok v := by
  rw [← length_toTopFirst] at h
  exact ⟨_, peek_of_lt h⟩

/-! ## Reads beyond the bottom -/

theorem pop_eq_error_iff {s : Stack} {e : Error} :
    s.pop = .error e ↔ s.depth = 0 ∧ e = .stackUnderflow 1 0 := by
  rcases s.eq_empty_or_push with rfl | ⟨t, v, rfl⟩
  · simp [eq_comm]
  · simp

theorem peek_eq_error_iff {s : Stack} {i : UInt64} {e : Error} :
    s.peek i = .error e ↔ s.depth ≤ i.toNat ∧ e = .stackUnderflow (i + 1).toNat s.depth := by
  by_cases h : i.toNat < s.toTopFirst.length
  · rw [peek_of_lt h]
    simp at h ⊢
    omega
  · have hnone : s.toTopFirst[i.toNat]? = none := List.getElem?_eq_none (Nat.not_lt.mp h)
    rw [peek_eq, hnone]
    simp at h ⊢
    simp [h, eq_comm]

theorem kind_of_pop {s : Stack} {e : Error} (h : s.pop = .error e) : e.kind = .stackUnderflow := by
  obtain ⟨-, rfl⟩ := pop_eq_error_iff.mp h
  rfl

theorem kind_of_peek {s : Stack} {i : UInt64} {e : Error} (h : s.peek i = .error e) :
    e.kind = .stackUnderflow := by
  obtain ⟨-, rfl⟩ := peek_eq_error_iff.mp h
  rfl

end Stack
end WordMachine
