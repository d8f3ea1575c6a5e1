import WordMachine.Log
import WordMachine.Proofs.Binary64.Length
import WordMachine.Proofs.Text.Literal

/-!
# The display and the report list the same lines

A stack is listed in two places: the display shows as many of its values as are asked for, and the
report of a failure shows them all, each behind a column with its position. Both go through the
positions one by one and would pass over a position without a value. **No position is passed over,
and without their columns the lines of the report are those of the display** (`listings_agree`).

Both are one loop over positions, `Stack.entries`, so what there is to know about the loop is said
once, of the list with the top at its head (`Stack.entries_eq`). The bound on the depth is that of a
machine word, in which depths and positions are counted; a stack beyond it has values that no
position names.

A line is a line in the text only if the value has no newline in it. Words and primitives may, since
their symbols are printed as they are. Numbers and strings may not: what is printed of them has no
control byte at all, and so it has no NUL either and is printed whole (`Value.line_of_literal`).
-/

set_option autoImplicit false

namespace WordMachine

/-! ## Numbers and strings are printed whole, on one line -/

namespace Value

variable {v : Value}

theorem tag_name_printable (tag : Tag) : ∀ b ∈ tag.name, 0x20 ≤ b := by
  have key : tag.name.all (0x20 ≤ ·) = true := by cases tag <;> decide
  simpa using key

/-- A control byte that numbers do not have stands in the text of no number and no string. -/
theorem control_not_mem_text {b : UInt8} (hb : b < 0x20) (hnumber : ∀ x : Binary64, b ∉ x.text)
    (hv : v.tag = .number ∨ v.tag = .string) : b ∉ v.text := by
  have hpayload : b ∉ v.payloadText := by
    cases v with
    | number x =>
      rw [payloadText_number]
      exact hnumber x
    | string content =>
      intro h
      exact UInt8.not_le.mpr hb (Text.Quoted.printable_encode content b h)
    | word symbol => simp [tag] at hv
    | primitive p => simp [tag] at hv
  have hparens : b ∉ Text.ofString "(" ∧ b ∉ Text.ofString ")" := by
    change b ∉ [0x28] ∧ b ∉ [0x29]
    constructor
    · rintro (_ | ⟨_, ⟨⟩⟩)
      exact absurd hb (by decide)
    · rintro (_ | ⟨_, ⟨⟩⟩)
      exact absurd hb (by decide)
  have htag : b ∉ v.tag.name := fun h => UInt8.not_le.mpr hb (tag_name_printable _ b h)
  simp [text, htag, hpayload, hparens]

theorem newline_not_mem_text (hv : v.tag = .number ∨ v.tag = .string) : (0x0a : UInt8) ∉ v.text :=
  control_not_mem_text (by decide) Binary64.newline_not_mem_text hv

theorem line_of_literal (hv : v.tag = .number ∨ v.tag = .string) : v.line = v.text ++ [0x0a] := by
  have hnul : (0 : UInt8) ∉ v.text :=
    control_not_mem_text (by decide) Binary64.zero_not_mem_text hv
  rw [line, Text.upToNul_eq_self hnul]
  rfl

variable {vs : List Value}

theorem count_newline_lines (h : ∀ v ∈ vs, v.tag = .number ∨ v.tag = .string) :
    (vs.flatMap line).count 0x0a = vs.length := by
  induction vs with
  | nil => simp
  | cons v vs ih =>
    obtain ⟨hv, hvs⟩ := List.forall_mem_cons.mp h
    have hnone : v.text.count 0x0a = 0 := List.count_eq_zero.mpr (newline_not_mem_text hv)
    simp [line_of_literal hv, ih hvs, hnone]

/-- Cut at its newlines, a listing gives back the texts listed; nothing follows the last newline. -/
theorem splitOn_newline_lines (h : ∀ v ∈ vs, v.tag = .number ∨ v.tag = .string) :
    (vs.flatMap line).splitOn 0x0a = vs.map text ++ [[]] := by
  induction vs with
  | nil => simp
  | cons v vs ih =>
    obtain ⟨hv, hvs⟩ := List.forall_mem_cons.mp h
    have hcut := List.splitOn_append_cons_self_of_not_mem (newline_not_mem_text hv)
      (vs.flatMap line)
    simp [line_of_literal hv, hcut, ih hvs]

end Value

/-! ## The display -/

namespace Stack

variable {s : Stack}

theorem display_isPrefix (hs : s.depth < UInt64.size) {n m : Nat} (h : n ≤ m) :
    s.display n <+: s.display m := by
  rw [display_eq hs, display_eq hs]
  have hsplit := List.take_append_drop n (s.toTopFirst.take m)
  rw [List.take_take, Nat.min_eq_left h] at hsplit
  rw [← hsplit, List.flatMap_append]
  exact List.prefix_append _ _

/-- One text is written for every position: none is without a value. -/
theorem length_entries (hs : s.depth < UInt64.size) (entry : Nat → Value → Text) {count : Nat}
    (h : count ≤ s.depth) : (s.entries entry 0 count).length = count := by
  rw [entries_eq hs entry (by simpa using h)]
  simp
  omega

end Stack

/-! ## The report -/

namespace Logger

/-- A line of the report without its column: without the blanks, the digits and the bar. -/
def withoutColumn (t : Text) : Text := ((t.dropWhile (· == 0x20)).dropWhile Text.isDigit).drop 3

/-- The column can be told from whatever follows it. -/
theorem withoutColumn_column (position : Nat) (t : Text) :
    withoutColumn (column position ++ t) = t := by
  generalize hdigits : Text.ofNat position = digits
  have hall : ∀ b ∈ digits, Text.isDigit b = true := by
    rw [← hdigits]
    exact Text.isDigit_of_mem_ofNat position
  have hblank : ∀ b ∈ (0x20 : UInt8) :: List.replicate (3 - digits.length) 0x20,
      (b == 0x20) = true := by
    intro b hb
    rcases List.mem_cons.mp hb with rfl | hb
    · rfl
    · simp [List.eq_of_mem_replicate hb]
  have hcolumn : column position ++ t
      = (0x20 :: List.replicate (3 - digits.length) 0x20)
        ++ (digits ++ 0x20 :: 0x7c :: 0x20 :: t) := by
    rw [column, hdigits, List.leftpad]
    simp only [List.append_assoc, List.cons_append]
    rfl
  have hfirst : (digits ++ 0x20 :: 0x7c :: 0x20 :: t).dropWhile (· == 0x20)
      = digits ++ 0x20 :: 0x7c :: 0x20 :: t := by
    cases digits with
    | nil => exact absurd hdigits (Text.ofNat_ne_nil position)
    | cons b rest =>
      have hb : b ≠ 0x20 := by
        rintro rfl
        exact absurd (hall 0x20 List.mem_cons_self) (by decide)
      exact List.dropWhile_cons_of_neg (by simpa using hb)
  rw [withoutColumn, hcolumn, List.dropWhile_append_of_pos hblank, hfirst,
    List.dropWhile_append_of_pos hall]
  rfl

theorem itemLines_eq {s : Stack} (hs : s.depth < UInt64.size) :
    itemLines s = s.toTopFirst.zipIdx.map fun p => column p.2 ++ p.1.line := by
  rw [itemLines, Stack.entries_eq hs itemLine (by simp)]
  simp [← Stack.length_toTopFirst, itemLine]

theorem flatten_map_withoutColumn {s : Stack} (hs : s.depth < UInt64.size) :
    ((itemLines s).map withoutColumn).flatten = s.display s.depth := by
  have hlines : (itemLines s).map withoutColumn
      = (s.toTopFirst.zipIdx.map Prod.fst).map Value.line := by
    rw [itemLines_eq hs, List.map_map, List.map_map]
    simp [Function.comp_def, withoutColumn_column]
  rw [hlines, List.zipIdx_map_fst, Stack.display_eq hs, List.flatMap, ← Stack.length_toTopFirst,
    List.take_length]

theorem failure_of_depth_ne_zero (l : Logger) {f : Failure} (h : f.stack.depth ≠ 0) :
    l.failure f = l.error (f.error.text.upToNul ++ Text.ofString " at pc " ++ Text.ofNat f.pc)
      ++ Text.ofString "     | stack, top first:\n" ++ (itemLines f.stack).flatten := by
  have hempty : f.stack.isEmpty = false := by
    simpa [Stack.isEmpty, Stack.depth] using h
  simp [failure, stackLines, hempty]

end Logger

/-- **Both listings are complete, in order and the same.** The display writes, for as many values as
are asked for and from the top downwards, the text of each up to its first NUL and a newline; so more
values add lines at the end, and beyond the depth there are none to add. Of numbers and strings every
line is the whole text of one value. The report of a failure lists the whole stack: its lines are
numbered from zero, to the right of a column of three at least, and without that column they are what
the display shows. In both, every position that is visited has a value. -/
theorem listings_agree (s : Stack) (hs : s.depth < UInt64.size) :
    (∀ n, s.display n = (s.toTopFirst.take n).flatMap fun v => v.text.upToNul ++ [0x0a]) ∧
    (∀ n m, n ≤ m → s.display n <+: s.display m) ∧
    (∀ n, s.depth ≤ n → s.display n = s.display s.depth) ∧
    ((∀ v ∈ s.toTopFirst, v.tag = .number ∨ v.tag = .string) → ∀ n,
      (s.display n).count 0x0a = min n s.depth ∧
      (s.display n).splitOn 0x0a = (s.toTopFirst.take n).map Value.text ++ [[]]) ∧
    (∀ (l : Logger) (f : Failure), f.stack = s → s.depth ≠ 0 →
      l.failure f = l.error (f.error.text.upToNul ++ Text.ofString " at pc " ++ Text.ofNat f.pc)
        ++ Text.ofString "     | stack, top first:\n" ++ (Logger.itemLines s).flatten) ∧
    Logger.itemLines s = (s.toTopFirst.zipIdx.map fun p =>
      Text.ofString " " ++ List.leftpad 3 0x20 (Text.ofNat p.2) ++ Text.ofString " | "
        ++ (p.1.text.upToNul ++ [0x0a])) ∧
    ((Logger.itemLines s).map Logger.withoutColumn).flatten = s.display s.depth ∧
    (∀ i : UInt64, i.toNat < s.depth → ∃ v, s.peek i = .ok v) ∧
    (∀ entry n, (s.entries entry 0 (min n s.depth)).length = min n s.depth) := by
  refine ⟨Stack.display_eq hs, fun n m h => Stack.display_isPrefix hs h,
    fun n h => Stack.display_of_depth_le h, ?_, ?_, Logger.itemLines_eq hs,
    Logger.flatten_map_withoutColumn hs, fun i h => Stack.exists_peek_of_lt h, ?_⟩
  · intro h n
    have htake : ∀ v ∈ s.toTopFirst.take n, v.tag = .number ∨ v.tag = .string :=
      fun v hv => h v (List.mem_of_mem_take hv)
    rw [Stack.display_eq hs]
    constructor
    · rw [Value.count_newline_lines htake, List.length_take, Stack.length_toTopFirst]
    · exact Value.splitOn_newline_lines htake
  · rintro l f rfl h
    exact Logger.failure_of_depth_ne_zero l h
  · intro entry n
    exact Stack.length_entries hs entry (Nat.min_le_right _ _)

/-- A number on a string of a newline and a NUL makes two lines, both of them whole. -/
theorem listings_agree_escaped :
    ((Stack.ofList [.string [0x0a, 0], .number (.ofNat 1)]).display 5).count 0x0a = 2 ∧
    ((Stack.ofList [.string [0x0a, 0], .number (.ofNat 1)]).display 5).splitOn 0x0a
      = [(Value.number (.ofNat 1)).text, (Value.string [0x0a, 0]).text, []] ∧
    (Stack.ofList [.string [0x0a, 0], .number (.ofNat 1)]).display 1
      <+: (Stack.ofList [.string [0x0a, 0], .number (.ofNat 1)]).display 2 := by
  obtain ⟨-, hmore, -, hlines, -⟩ :=
    listings_agree (Stack.ofList [.string [0x0a, 0], .number (.ofNat 1)]) (by decide)
  have htop : (Stack.ofList [.string [0x0a, 0], .number (.ofNat 1)]).toTopFirst
      = [.number (.ofNat 1), .string [0x0a, 0]] := by
    simp [Stack.toTopFirst, Stack.toList, Stack.ofList]
  rw [htop] at hlines
  obtain ⟨hcount, hsplit⟩ := hlines (by simp [Value.tag]) 5
  exact ⟨hcount, hsplit, hmore 1 2 (by decide)⟩

end WordMachine
