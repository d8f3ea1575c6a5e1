import WordMachine.Stack

/-!
# Display

The top of a stack, one value to a line and the top first. A line ends at the first NUL of the
value's text, if it has one.

Values are listed position after position, each read from the stack on its own, and a position
without a value would be passed over. As long as the depth of the stack is a machine word, as the
positions are, **the listing is the list with the top at its head** (`entries_eq`).
-/

set_option autoImplicit false

namespace WordMachine

/-- How many values are shown unless another count is asked for. -/
def defaultShowCount : Nat := 20

/-- A value on a line of its own. -/
def Value.line (v : Value) : Text := v.text.upToNul ++ Text.ofString "\n"

namespace Stack

/-- What is written for `count` positions from `i` on, one text for each value. -/
def entries (s : Stack) (entry : Nat → Value → Text) : UInt64 → Nat → List Text
  | _, 0 => []
  | i, count + 1 =>
    match s.peek i with
    | .ok v => entry i.toNat v :: s.entries entry (i + 1) count
    | .error _ => s.entries entry (i + 1) count

/-- The lines of the top `count` values, the top first; all of them if there are not as many. -/
def display (s : Stack) (count : Nat) : Text :=
  (s.entries (fun _ v => v.line) 0 (min count s.depth)).flatten

variable {s : Stack}

theorem entries_eq (hs : s.depth < UInt64.size) (entry : Nat → Value → Text) {i : UInt64}
    {count : Nat} (h : i.toNat + count ≤ s.depth) :
    s.entries entry i count
      = (((s.toTopFirst.drop i.toNat).take count).zipIdx i.toNat).map fun p => entry p.2 p.1 := by
  induction count generalizing i with
  | zero => simp [entries]
  | succ count ih =>
    have hi : i.toNat < s.toTopFirst.length := by
      rw [length_toTopFirst]
      omega
    -- the position stays below the depth, so it does not wrap
    have hnext : (i + 1).toNat = i.toNat + 1 := toNat_add_one (by omega)
    rw [entries, peek_of_lt hi, List.drop_eq_getElem_cons hi, List.take_succ_cons, List.zipIdx_cons,
      List.map_cons, ← hnext, ← ih (by omega)]

/-- What is displayed, said of the list with the top at its head. -/
theorem display_eq (hs : s.depth < UInt64.size) (count : Nat) :
    s.display count = (s.toTopFirst.take count).flatMap Value.line := by
  have hle : (0 : UInt64).toNat + min count s.depth ≤ s.depth := by
    rw [UInt64.toNat_zero, Nat.zero_add]
    exact Nat.min_le_right count s.depth
  have hfst : ∀ (l : List Value) (k : Nat),
      (l.zipIdx k).map (fun p => p.1.line) = l.map Value.line := by
    intro l k
    change (l.zipIdx k).map (Value.line ∘ Prod.fst) = _
    rw [← List.map_map, List.zipIdx_map_fst]
  rw [display, entries_eq hs _ hle, hfst, List.flatMap]
  simp [List.take_eq_take_min, ← length_toTopFirst]

/-- Beyond the depth of the stack the count does not matter. -/
theorem display_of_depth_le {count : Nat} (h : s.depth ≤ count) :
    s.display count = s.display s.depth := by
  rw [display, display, Nat.min_eq_right h, Nat.min_self]

end Stack
end WordMachine
