import WordMachine.CommandLine.Execute
import WordMachine.Proofs.CommandLine.Scanning

/-!
# Flags can be spelled apart

Letters that share a dash may each be given one of their own, and the value that is attached to an
`n` may be made the next argument: **the command is read as before**, the complaint included if
there is one. This needs two conditions.

* The argument that is changed has to be one that is read as flags. Not every argument with a dash
  is: it may stand behind the flags, or be the value of an `n`. `Passes` describes what may stand
  before it, by the rules of the reader and not by what it finds.
* The letters that are left for the last dash must not be a dash themselves. In `-V-` that is a flag
  without a meaning, but `-V --` ends the flags.
-/

set_option autoImplicit false

namespace WordMachine
namespace Flag

/-- With some letters of the current argument still to be read, the reader gets through all of the
arguments after it, and expects flags in whatever comes next. -/
inductive Passes : Text → List Text → Prop
  | done : Passes [] []
  | cluster {letters : Text} {rest : List Text} :
      letters ≠ [] → letters ≠ [dash] → Passes letters rest → Passes [] ((dash :: letters) :: rest)
  | letter {letter : UInt8} {letters : Text} {rest : List Text} :
      letter ≠ countLetter → Passes letters rest → Passes (letter :: letters) rest
  | attached {value : Text} {rest : List Text} :
      value ≠ [] → Passes [] rest → Passes (countLetter :: value) rest
  | separate {value : Text} {rest : List Text} :
      Passes [] rest → Passes [countLetter] (value :: rest)

/-- A spelling and one with more arguments, of the same flags. -/
inductive Respelled : List Text → List Text → Prop
  /-- Letters before the others of their argument get dashes of their own. -/
  | split {before after : List Text} {letters others : Text} :
      Passes [] before → (∀ c ∈ letters, c = 0x56 ∨ c = 0x6c) → others ≠ [] → others ≠ [dash] →
      Respelled (before ++ (dash :: (letters ++ others)) :: after)
        (before ++ (letters.map (fun c => [dash, c]) ++ (dash :: others) :: after))
  /-- An attached value becomes an argument. -/
  | detached {before after : List Text} {value : Text} :
      Passes [] before → value ≠ [] →
      Respelled (before ++ (dash :: countLetter :: value) :: after)
        (before ++ [dash, countLetter] :: value :: after)

/-! ## What stands before -/

theorem Passes.scanFrom_append {letters : Text} {before : List Text} (h : Passes letters before) :
    ∃ flags, ∀ rest,
      scanFrom letters (before ++ rest) = (flags ++ (scan rest).1, (scan rest).2) := by
  induction h with
  | done => exact ⟨[], fun rest => scanFrom_nil rest⟩
  | cluster hne hdash _ ih =>
    obtain ⟨flags, hflags⟩ := ih
    refine ⟨flags, fun rest => ?_⟩
    rw [List.cons_append, scanFrom_nil, scan_cluster hne hdash, hflags]
  | @letter letter _ _ hn _ ih =>
    obtain ⟨flags, hflags⟩ := ih
    refine ⟨ofLetter letter :: flags, fun rest => ?_⟩
    rw [scanFrom_cons_of_ne hn, hflags, List.cons_append]
  | @attached value _ hne _ ih =>
    obtain ⟨flags, hflags⟩ := ih
    refine ⟨.count value :: flags, fun rest => ?_⟩
    rw [countLetter, scanFrom_attached hne, ← scanFrom_nil, hflags, List.cons_append]
  | @separate value _ _ ih =>
    obtain ⟨flags, hflags⟩ := ih
    refine ⟨.count value :: flags, fun rest => ?_⟩
    rw [countLetter, List.cons_append, scanFrom_separate, ← scanFrom_nil, hflags, List.cons_append]

theorem Passes.scan_congr {before a b : List Text} (h : Passes [] before) (hab : scan a = scan b) :
    scan (before ++ a) = scan (before ++ b) := by
  obtain ⟨flags, hflags⟩ := h.scanFrom_append
  rw [← scanFrom_nil, ← scanFrom_nil, hflags, hflags, hab]

/-! ## The argument that is changed -/

theorem scan_cluster_cons {c : UInt8} (hn : c ≠ countLetter) (hdash : c ≠ dash) (letters : Text)
    (rest : List Text) :
    scan ((dash :: c :: letters) :: rest)
      = (ofLetter c :: (scanFrom letters rest).1, (scanFrom letters rest).2) := by
  rw [scan_cluster (List.cons_ne_nil c letters) (fun h => hdash (List.cons.inj h).1),
    scanFrom_cons_of_ne hn]

/-- Induction on the letters that get a dash: each is read in the same way before the others of its
cluster and alone. -/
theorem scan_split {letters others : Text} (hletters : ∀ c ∈ letters, c = 0x56 ∨ c = 0x6c)
    (hne : others ≠ []) (hdash : others ≠ [dash]) (after : List Text) :
    scan ((dash :: (letters ++ others)) :: after)
      = scan (letters.map (fun c => [dash, c]) ++ (dash :: others) :: after) := by
  induction letters with
  | nil => rfl
  | cons c letters ih =>
    obtain ⟨hc, hrest⟩ := List.forall_mem_cons.mp hletters
    have hn : c ≠ countLetter := by rcases hc with rfl | rfl <;> decide
    have hd : c ≠ dash := by rcases hc with rfl | rfl <;> decide
    have hne' : letters ++ others ≠ [] := fun h => hne (List.append_eq_nil_iff.mp h).2
    have hdash' : letters ++ others ≠ [dash] := by
      intro h
      rcases List.append_eq_singleton_iff.mp h with ⟨-, h⟩ | ⟨h, -⟩
      · exact hdash h
      · subst h
        rcases hrest dash List.mem_cons_self with h | h <;> cases h
    rw [List.cons_append, scan_cluster_cons hn hd, ← scan_cluster hne' hdash', ih hrest,
      List.map_cons, List.cons_append, scan_cluster_cons hn hd, scanFrom_nil]

theorem scan_detached {value : Text} (hne : value ≠ []) (after : List Text) :
    scan ((dash :: countLetter :: value) :: after) = scan ([dash, countLetter] :: value :: after) := by
  rw [scan_cluster (List.cons_ne_nil _ _) (by simp [hne]), scan_cluster (by decide) (by decide),
    countLetter, scanFrom_attached hne, scanFrom_separate]

theorem Respelled.scan_eq {a b : List Text} (h : Respelled a b) : scan a = scan b := by
  cases h with
  | split hbefore hletters hne hdash => exact hbefore.scan_congr (scan_split hletters hne hdash _)
  | detached hbefore hne => exact hbefore.scan_congr (scan_detached hne _)

end Flag

/-- **Another spelling is read as the same options**, or refused with the same complaint. -/
theorem Options.parse_respelled {a b : List Text} (h : Flag.Respelled a b) : parse a = parse b := by
  rw [parse, parse, h.scan_eq]

theorem CommandLine.execute_respelled {a b : List Text} (h : Flag.Respelled a b) (command : Text) :
    execute command a = execute command b := by
  rw [execute, execute, Options.parse_respelled h]

end WordMachine
