import WordMachine.Proofs.CommandLine.Count

/-!
# Counts of any size

The value of `-n` is a whole number of any length, and it is kept in a machine word. **Nobody can
tell**: a stack has fewer values than the greatest word counts, so showing as many as the word says
is showing as many as the text says (`count_saturation_invisible`).

Everything rests on the text denoting one number (`Denotes.unique`). Then reading decides by the
sign of that number, and the word that is read is off only where it does not matter.
-/

set_option autoImplicit false

namespace WordMachine
namespace Options

variable {t : Text} {z : Int}

/-- The number that a text denotes can be read off its parts. -/
theorem Denotes.eq_takeSign (h : Denotes t z) :
    z = if (Text.takeSign (t.dropWhile Text.isBlank)).1
      then -(Text.toNat (Text.takeSign (t.dropWhile Text.isBlank)).2 : Int)
      else Text.toNat (Text.takeSign (t.dropWhile Text.isBlank)).2 := by
  obtain ⟨hb, hs, hne, hd⟩ := h
  rw [dropWhile_blanks hb hs hne hd, takeSign_append hs hne hd]

theorem Denotes.unique {z' : Int} (h : Denotes t z) (h' : Denotes t z') : z = z' :=
  h.eq_takeSign.trans h'.eq_takeSign.symm

theorem Denotes.readCount?_of_nonneg (h : Denotes t z) (hz : 0 ≤ z) :
    readCount? t = some (min z.toNat maxCount) :=
  readCount?_eq_some_iff_denotes.mpr ⟨z, h, hz, rfl⟩

theorem readCount?_isSome_iff : (∃ n, readCount? t = some n) ↔ ∃ z, Denotes t z ∧ 0 ≤ z := by
  constructor
  · rintro ⟨n, h⟩
    obtain ⟨z, hz, hsign, -⟩ := readCount?_eq_some_iff_denotes.mp h
    exact ⟨z, hz, hsign⟩
  · rintro ⟨z, hz, hsign⟩
    exact ⟨_, hz.readCount?_of_nonneg hsign⟩

theorem readCount?_eq_none_iff : readCount? t = none ↔ ∀ z, Denotes t z → z < 0 := by
  rw [← Option.not_isSome_iff_eq_none, Option.isSome_iff_exists, readCount?_isSome_iff]
  simp

/-- Options with another count of values to show. -/
def showing (o : Options) (count : Nat) : Options := { o with showCount := count }

theorem takeFlags_count_of_some {n : Nat} (h : readCount? t = some n) (o : Options)
    (rest : List Flag) : takeFlags o (.count t :: rest) = takeFlags (o.showing n) rest := by
  rw [takeFlags, h]
  rfl

theorem takeFlags_count_of_none (h : readCount? t = none) (o : Options) (rest : List Flag) :
    takeFlags o (.count t :: rest) = (o, some (.invalidCount t)) := by
  rw [takeFlags, h]

/-- Where the number is too great for the word, the word is still as great as the depth. -/
theorem display_min_maxCount {s : Stack} (hs : s.depth ≤ maxCount) (count : Nat) :
    s.display (min count maxCount) = s.display count := by
  rcases Nat.le_total count maxCount with h | h
  · rw [Nat.min_eq_left h]
  · rw [Nat.min_eq_right h, Stack.display_of_depth_le hs,
      Stack.display_of_depth_le (Nat.le_trans hs h)]

/-- **A count means what it says, whatever its length.** A text is accepted for `-n` if and only if
it is a whole number, in decimal after white space and a sign, that is not negative; so a negative
number is refused however large it is, and a minus sign before zeros is not. An accepted count is the
number denoted, up to the greatest that a machine word holds, and any other text ends the reading of
the options as they are. And on every stack that is less deep than that, what is shown for the count
is what is shown for the number: the top values, as many as the number says or as there are. -/
theorem count_saturation_invisible (t : Text) :
    ((∃ n, readCount? t = some n) ↔ ∃ z, Denotes t z ∧ 0 ≤ z) ∧
    (∀ z z', Denotes t z → Denotes t z' → z = z') ∧
    (∀ z, Denotes t z → z < 0 → readCount? t = none) ∧
    (∀ z, Denotes t z → 0 ≤ z → ∀ o rest,
      takeFlags o (.count t :: rest) = takeFlags (o.showing (min z.toNat maxCount)) rest) ∧
    ((¬∃ z, Denotes t z ∧ 0 ≤ z) → ∀ o rest,
      takeFlags o (.count t :: rest) = (o, some (.invalidCount t))) ∧
    (∀ z n, Denotes t z → readCount? t = some n →
      n = min z.toNat maxCount ∧
      ∀ s : Stack, s.depth ≤ maxCount →
        s.display n = s.display z.toNat ∧
        s.display n = (s.toTopFirst.take (min z.toNat s.depth)).flatMap Value.line) := by
  refine ⟨readCount?_isSome_iff, fun z z' => Denotes.unique, ?_, ?_, ?_, ?_⟩
  · intro z hz hneg
    refine readCount?_eq_none_iff.mpr fun z' hz' => ?_
    rw [hz'.unique hz]
    exact hneg
  · intro z hz hsign o rest
    exact takeFlags_count_of_some (hz.readCount?_of_nonneg hsign) o rest
  · intro h o rest
    refine takeFlags_count_of_none (readCount?_eq_none_iff.mpr fun z hz => ?_) o rest
    exact Int.not_le.mp fun hsign => h ⟨z, hz, hsign⟩
  · intro z n hz hn
    obtain ⟨z', hz', -, rfl⟩ := readCount?_eq_some_iff_denotes.mp hn
    obtain rfl := hz.unique hz'
    refine ⟨rfl, fun s hs => ?_⟩
    have hword : s.depth < UInt64.size := Nat.lt_of_le_of_lt hs (by decide)
    rw [display_min_maxCount hs]
    refine ⟨rfl, ?_⟩
    rw [Stack.display_eq hword, ← Stack.length_toTopFirst, ← List.take_eq_take_min]

/-- Thirty nines after a blank and a sign are read as the greatest count, which shows what they would
show; with a minus sign they are refused. -/
theorem count_saturation_invisible_nines :
    readCount? ([0x20] ++ [0x2b] ++ List.replicate 30 0x39) = some maxCount ∧
    (Stack.ofList [.word []]).display maxCount
      = (Stack.ofList [.word []]).display 999999999999999999999999999999 ∧
    readCount? ([] ++ [0x2d] ++ List.replicate 30 0x39) = none := by
  have hvalue : Text.toNat (List.replicate 30 0x39) = 999999999999999999999999999999 := by
    decide +kernel
  have hdigits : ∀ b ∈ List.replicate 30 (0x39 : UInt8), Text.isDigit b = true := by
    intro b hb
    rw [List.eq_of_mem_replicate hb]
    rfl
  have hplus : Denotes ([0x20] ++ [0x2b] ++ List.replicate 30 0x39)
      (Text.toNat (List.replicate 30 0x39)) :=
    .written (by simp [Text.isBlank]) .plus (by simp) hdigits
  have hminus : Denotes ([] ++ [0x2d] ++ List.replicate 30 0x39)
      (-(Text.toNat (List.replicate 30 0x39) : Int)) :=
    .written (by simp) .minus (by simp) hdigits
  rw [hvalue] at hplus hminus
  obtain ⟨haccepted, -, -, -, -, hshown⟩ :=
    count_saturation_invisible ([0x20] ++ [0x2b] ++ List.replicate 30 0x39)
  obtain ⟨-, -, hrefused, -⟩ := count_saturation_invisible ([] ++ [0x2d] ++ List.replicate 30 0x39)
  obtain ⟨n, hn⟩ := haccepted.mpr ⟨_, hplus, by decide⟩
  obtain ⟨hcount, hdisplay⟩ := hshown _ n hplus hn
  have hmax : n = maxCount := hcount
  subst hmax
  exact ⟨hn, (hdisplay _ (by decide)).1, hrefused _ hminus (by decide)⟩

end Options
end WordMachine
