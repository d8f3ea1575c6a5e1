import WordMachine.CommandLine.Flag

/-!
# The grammar of flags

`Flag.scan` splits arguments cluster by cluster. The rules that it has to follow are usually told
letter by letter, by a reader that stands somewhere inside an argument: `Scans letters rest flags
operands` says that, with `letters` left of the current argument and `rest` after it, that reader
finds `flags` and then stops at `operands`. One constructor is one rule.

**The two agree** (`scans_iff`): the rules admit exactly one split, and it is the one that is
computed. In between stands `scanFrom`, the computed split from inside a cluster, for which each
rule is an equation.
-/

set_option autoImplicit false

namespace WordMachine
namespace Flag

/-- The rules by which arguments are split, letter by letter. -/
inductive Scans : Text → List Text → List Flag → List Text → Prop
  /-- No argument is left. -/
  | finished : Scans [] [] [] []
  /-- An argument without a dash at its front is an operand, and so is all that follows. -/
  | operand {argument : Text} {rest : List Text} :
      argument.head? ≠ some dash → Scans [] (argument :: rest) [] (argument :: rest)
  /-- So is a dash alone. -/
  | loneDash {rest : List Text} : Scans [] ([dash] :: rest) [] ([dash] :: rest)
  /-- Two dashes end the flags and belong to neither side. -/
  | terminator {rest : List Text} : Scans [] ([dash, dash] :: rest) [] rest
  /-- A dash with anything else after it opens a cluster of letters. -/
  | cluster {letters : Text} {rest : List Text} {flags : List Flag} {operands : List Text} :
      letters ≠ [] → letters ≠ [dash] → Scans letters rest flags operands →
      Scans [] ((dash :: letters) :: rest) flags operands
  /-- The letter `V`. -/
  | verbose {letters : Text} {rest : List Text} {flags : List Flag} {operands : List Text} :
      Scans letters rest flags operands →
      Scans (0x56 :: letters) rest (.verbose :: flags) operands
  /-- The letter `l`. -/
  | list {letters : Text} {rest : List Text} {flags : List Flag} {operands : List Text} :
      Scans letters rest flags operands → Scans (0x6c :: letters) rest (.list :: flags) operands
  /-- A letter without a meaning. -/
  | unknown {letter : UInt8} {letters : Text} {rest : List Text} {flags : List Flag}
      {operands : List Text} :
      letter ≠ 0x56 → letter ≠ 0x6c → letter ≠ 0x6e → Scans letters rest flags operands →
      Scans (letter :: letters) rest (.unknown letter :: flags) operands
  /-- The letter `n` takes what is left of its argument as its value. -/
  | attached {value : Text} {rest : List Text} {flags : List Flag} {operands : List Text} :
      value ≠ [] → Scans [] rest flags operands →
      Scans (0x6e :: value) rest (.count value :: flags) operands
  /-- At the end of its argument, `n` takes the next one, whatever it looks like. -/
  | separate {value : Text} {rest : List Text} {flags : List Flag} {operands : List Text} :
      Scans [] rest flags operands → Scans [0x6e] (value :: rest) (.count value :: flags) operands
  /-- There may be none. -/
  | missing : Scans [0x6e] [] [.missingCount] []

/-! ## The computed split, from inside a cluster -/

/-- What is found with some letters of the current argument still to be read. -/
def scanFrom (letters : Text) (rest : List Text) : List Flag × List Text :=
  match Flag.cluster letters, rest with
  | (flags, false), rest => (flags ++ (scan rest).1, (scan rest).2)
  | (flags, true), [] => (flags ++ [.missingCount], [])
  | (flags, true), value :: rest => (flags ++ .count value :: (scan rest).1, (scan rest).2)

theorem scanFrom_nil (rest : List Text) : scanFrom [] rest = scan rest := rfl

theorem scanFrom_cons_of_ne {letter : UInt8} (h : letter ≠ countLetter) (letters : Text)
    (rest : List Text) :
    scanFrom (letter :: letters) rest
      = (ofLetter letter :: (scanFrom letters rest).1, (scanFrom letters rest).2) := by
  unfold scanFrom
  rw [Flag.cluster, if_neg h]
  obtain ⟨flags, awaits⟩ := Flag.cluster letters
  cases awaits with
  | false => rfl
  | true =>
    cases rest with
    | nil => rfl
    | cons value rest => rfl

theorem scanFrom_attached {value : Text} (h : value ≠ []) (rest : List Text) :
    scanFrom (0x6e :: value) rest = (.count value :: (scan rest).1, (scan rest).2) := by
  unfold scanFrom
  rw [Flag.cluster, if_pos (by rfl), if_neg h]
  rfl

theorem scanFrom_separate (value : Text) (rest : List Text) :
    scanFrom [0x6e] (value :: rest) = (.count value :: (scan rest).1, (scan rest).2) := rfl

theorem letters?_eq_some_iff {argument letters : Text} :
    letters? argument = some letters ↔ argument = dash :: letters ∧ letters ≠ [] := by
  cases argument with
  | nil => simp [letters?]
  | cons b rest =>
    rw [letters?]
    by_cases h : b = dash ∧ rest ≠ []
    · rw [if_pos h]
      obtain ⟨rfl, hne⟩ := h
      constructor
      · intro hl
        cases hl
        exact ⟨rfl, hne⟩
      · rintro ⟨hl, -⟩
        cases hl
        rfl
    · rw [if_neg h]
      constructor
      · intro hl
        cases hl
      · rintro ⟨hl, hne⟩
        cases hl
        exact absurd ⟨rfl, hne⟩ h

theorem scan_of_letters?_eq_none {argument : Text} (h : letters? argument = none)
    (rest : List Text) : scan (argument :: rest) = ([], argument :: rest) := by
  rw [scan, h]

theorem scan_terminator (rest : List Text) : scan ([dash, dash] :: rest) = ([], rest) := by
  rw [scan, letters?_eq_some_iff.mpr ⟨rfl, by simp⟩]
  exact if_pos rfl

theorem scan_cluster {letters : Text} (hne : letters ≠ []) (hdash : letters ≠ [dash])
    (rest : List Text) : scan ((dash :: letters) :: rest) = scanFrom letters rest := by
  rw [scan, letters?_eq_some_iff.mpr ⟨rfl, hne⟩]
  simp only [hdash, if_false]
  unfold scanFrom
  obtain ⟨flags, awaits⟩ := Flag.cluster letters
  cases awaits with
  | false => rfl
  | true =>
    cases rest with
    | nil => rfl
    | cons value rest => rfl

/-! ## Agreement -/

/-- Whatever the rules admit is computed. Induction on the rules: each is one of the equations
above. -/
theorem Scans.eq_scanFrom {letters : Text} {rest : List Text} {flags : List Flag}
    {operands : List Text} (h : Scans letters rest flags operands) :
    scanFrom letters rest = (flags, operands) := by
  induction h with
  | finished => rfl
  | @operand argument rest hhead =>
    rw [scanFrom_nil]
    refine scan_of_letters?_eq_none ?_ rest
    cases hl : letters? argument with
    | none => rfl
    | some letters => rw [(letters?_eq_some_iff.mp hl).1] at hhead; exact absurd rfl hhead
  | loneDash => rfl
  | terminator => rw [scanFrom_nil, scan_terminator]
  | cluster hne hdash _ ih => rw [scanFrom_nil, scan_cluster hne hdash, ih]
  | verbose _ ih => rw [scanFrom_cons_of_ne (by decide), ih]; rfl
  | list _ ih => rw [scanFrom_cons_of_ne (by decide), ih]; rfl
  | unknown hv hl hn _ ih =>
    rw [scanFrom_cons_of_ne hn, ih, ofLetter, if_neg hv, if_neg hl]
  | attached hne _ ih => rw [scanFrom_nil] at ih; rw [scanFrom_attached hne, ih]
  | separate _ ih => rw [scanFrom_nil] at ih; rw [scanFrom_separate, ih]
  | missing => rfl

/-- Inside a cluster the rules admit what is computed, if they do so for the arguments after it. -/
theorem scans_scanFrom (letters : Text) {rest : List Text}
    (hrest : Scans [] rest (scan rest).1 (scan rest).2)
    (htail : ∀ value more, rest = value :: more → Scans [] more (scan more).1 (scan more).2) :
    Scans letters rest (scanFrom letters rest).1 (scanFrom letters rest).2 := by
  induction letters with
  | nil => exact hrest
  | cons letter letters ih =>
    by_cases hn : letter = 0x6e
    · subst hn
      by_cases hne : letters = []
      · subst hne
        cases rest with
        | nil => exact .missing
        | cons value more => exact .separate (htail value more rfl)
      · rw [scanFrom_attached hne]
        exact .attached hne hrest
    · rw [scanFrom_cons_of_ne hn]
      by_cases hv : letter = 0x56
      · subst hv; exact .verbose ih
      · by_cases hl : letter = 0x6c
        · subst hl; exact .list ih
        · rw [ofLetter, if_neg hv, if_neg hl]
          exact .unknown hv hl hn ih

/-- The rules admit what is computed. The recursion is on the arguments; a separate value skips one
of them, hence the measure. -/
theorem scans_scan (arguments : List Text) :
    Scans [] arguments (scan arguments).1 (scan arguments).2 := by
  match arguments with
  | [] => exact .finished
  | argument :: rest =>
    cases hl : letters? argument with
    | none =>
      rw [scan_of_letters?_eq_none hl]
      by_cases hhead : argument.head? = some dash
      · -- an operand that starts with a dash is nothing but that dash
        cases argument with
        | nil => cases hhead
        | cons b letters =>
          cases hhead
          cases letters with
          | nil => exact .loneDash
          | cons c letters =>
            rw [letters?_eq_some_iff.mpr ⟨rfl, List.cons_ne_nil c letters⟩] at hl
            cases hl
      · exact .operand hhead
    | some letters =>
      obtain ⟨rfl, hne⟩ := letters?_eq_some_iff.mp hl
      by_cases hdash : letters = [dash]
      · subst hdash
        rw [scan_terminator]
        exact .terminator
      · rw [scan_cluster hne hdash]
        refine .cluster hne hdash (scans_scanFrom letters (scans_scan rest) fun value more h => ?_)
        subst h
        exact scans_scan more
termination_by arguments.length

/-- **The rules split every list of arguments in exactly one way**, the one that is computed. -/
theorem scans_iff {arguments : List Text} {flags : List Flag} {operands : List Text} :
    Scans [] arguments flags operands ↔ scan arguments = (flags, operands) := by
  constructor
  · intro h
    exact h.eq_scanFrom
  · intro h
    have hs := scans_scan arguments
    rw [h] at hs
    exact hs

-- a value may look like anything, even like the two dashes that end the flags
example : scan (["-Vn5", "-n", "--", "--", "-l"].map Text.ofString)
    = ([.verbose, .count (Text.ofString "5"), .count (Text.ofString "--")],
      [Text.ofString "-l"]) := by
  decide

end Flag
end WordMachine
