import WordMachine.Proofs.Environment.Keys

/-!
# An environment is what its last definitions say

An environment is made by definitions, one after the other, each over any former one of its key.
`LastGives` reads a history of definitions without running it: the last definition of a key gives it
its value, and a key that is never defined has none. **The history counts for nothing else**
(`defineAll_canonical`). Look-ups, the size and the stored bindings are all read off the last
definitions, so that two histories leave one and the same environment if and only if their last
definitions agree; definitions of distinct keys can be made in any order.

The argument is one step and one run. A definition changes the look-up of its own key
(`find?_define`), hence a run of them changes those of the keys that it defines
(`find?_defineAll`). That the bindings are in order is part of the type, and an ordered list of
bindings is determined by its look-ups (`mem_bindings`, `ext_find?`).
-/

set_option autoImplicit false

namespace WordMachine
namespace Environment

/-- An environment after some definitions, made in order. -/
def defineAll (e : Environment) (history : List (Text × Value)) : Environment :=
  history.foldl (fun e d => e.define d.1 d.2) e

/-- The last definition of a key in a history gives it this value. -/
inductive LastGives : List (Text × Value) → Text → Value → Prop
  | here {key : Text} {value : Value} {rest : List (Text × Value)} :
      (∀ d ∈ rest, d.1 ≠ key) → LastGives ((key, value) :: rest) key value
  | later {key : Text} {value : Value} {first : Text × Value} {rest : List (Text × Value)} :
      LastGives rest key value → LastGives (first :: rest) key value

variable {history other : List (Text × Value)} {key : Text} {value : Value}

/-! ## The last definition of a key -/

theorem lastGives_cons {first : Text × Value} :
    LastGives (first :: history) key value ↔
      LastGives history key value ∨ (∀ d ∈ history, d.1 ≠ key) ∧ first = (key, value) := by
  constructor
  · intro h
    cases h with
    | here hrest => exact Or.inr ⟨hrest, rfl⟩
    | later h => exact Or.inl h
  · rintro (h | ⟨hrest, rfl⟩)
    · exact .later h
    · exact .here hrest

theorem LastGives.mem (h : LastGives history key value) : (key, value) ∈ history := by
  induction h with
  | here _ => simp
  | later _ ih => simp [ih]

theorem exists_lastGives_iff : (∃ value, LastGives history key value) ↔ ∃ d ∈ history, d.1 = key := by
  constructor
  · rintro ⟨value, h⟩
    exact ⟨_, h.mem, rfl⟩
  · intro h
    induction history with
    | nil => simp at h
    | cons first rest ih =>
      by_cases hrest : ∃ d ∈ rest, d.1 = key
      · obtain ⟨value, hvalue⟩ := ih hrest
        exact ⟨value, .later hvalue⟩
      · obtain ⟨d, hd, hkey⟩ := h
        rcases List.mem_cons.mp hd with rfl | hd
        · refine ⟨d.2, lastGives_cons.mpr (Or.inr ⟨?_, by rw [← hkey]⟩)⟩
          intro d' hd' hkey'
          exact hrest ⟨d', hd', hkey'⟩
        · exact absurd ⟨d, hd, hkey⟩ hrest

/-- Where no key is defined twice, every definition is the last one of its key. -/
theorem lastGives_iff_mem (h : (history.map Prod.fst).Nodup) :
    LastGives history key value ↔ (key, value) ∈ history := by
  constructor
  · exact LastGives.mem
  · intro hmem
    induction history with
    | nil => simp at hmem
    | cons first rest ih =>
      obtain ⟨hfirst, hrest⟩ := List.nodup_cons.mp h
      rcases List.mem_cons.mp hmem with rfl | hmem
      · refine .here fun d hd hkey => hfirst ?_
        exact List.mem_map.mpr ⟨d, hd, hkey⟩
      · exact .later (ih hrest hmem)

/-! ## Look-ups after a history -/

theorem find?_defineAll (e : Environment) (history : List (Text × Value)) :
    (e.defineAll history).find? key = some value ↔
      LastGives history key value ∨ (∀ d ∈ history, d.1 ≠ key) ∧ e.find? key = some value := by
  induction history generalizing e with
  | nil =>
    constructor
    · intro h
      exact Or.inr ⟨by simp, h⟩
    · rintro (h | ⟨-, h⟩)
      · cases h
      · exact h
  | cons first rest ih =>
    -- the first definition is one of the environment that the others are made in
    change ((e.define first.1 first.2).defineAll rest).find? key = some value ↔ _
    rw [ih, find?_define, lastGives_cons, List.forall_mem_cons]
    by_cases hkey : key = first.1
    · simp [hkey, Prod.ext_iff]
    · simp [hkey, Ne.symm hkey, Prod.ext_iff]

theorem find?_defineAll_empty :
    (empty.defineAll history).find? key = some value ↔ LastGives history key value := by
  simp [find?_defineAll]

theorem find?_defineAll_empty_eq_none :
    (empty.defineAll history).find? key = none ↔ ∀ d ∈ history, d.1 ≠ key := by
  rw [Option.eq_none_iff_forall_ne_some]
  simp only [ne_eq, find?_defineAll_empty, ← not_exists, exists_lastGives_iff]
  simp

/-! ## What is stored -/

/-- A binding is stored if and only if it is found: an ordered list has no key twice. -/
theorem mem_bindings {e : Environment} : (key, value) ∈ e.bindings ↔ e.find? key = some value := by
  constructor
  · obtain ⟨bindings, hsorted⟩ := e
    intro hmem
    change findBinding? key bindings = some value
    induction bindings with
    | nil => simp at hmem
    | cons first rest ih =>
      obtain ⟨hfirst, hrest⟩ := List.pairwise_cons.mp hsorted
      rcases List.mem_cons.mp hmem with rfl | hmem
      · simp [findBinding?]
      · have hne : key ≠ first.1 := (key_ne_of_lt (hfirst _ hmem)).symm
        rw [findBinding?, if_neg hne]
        exact ih hrest hmem
  · exact mem_of_findBinding?

theorem size_defineAll_empty (history : List (Text × Value)) :
    (empty.defineAll history).size = (history.map Prod.fst).toFinset.card := by
  rw [← card_keys]
  congr 1
  ext key
  rw [mem_keys, contains, Option.isSome_iff_exists]
  simp only [find?_defineAll_empty, exists_lastGives_iff]
  simp

/-- Two histories leave one environment if and only if their last definitions agree. -/
theorem defineAll_empty_eq_iff :
    empty.defineAll other = empty.defineAll history ↔
      ∀ key value, LastGives other key value ↔ LastGives history key value := by
  constructor
  · intro h key value
    rw [← find?_defineAll_empty, ← find?_defineAll_empty, h]
  · intro h
    refine ext_find? fun key => Option.ext fun value => ?_
    rw [find?_defineAll_empty, find?_defineAll_empty, h]

/-- **An environment is what its last definitions say**, whatever the history. A word is looked up to
the value of its last definition, and is unbound if there is none; it is contained if and only if it
is looked up; the size counts the keys defined. The stored bindings are the last definitions, in
strictly increasing order of their keys, none of which is there twice. So histories with the same
last definitions leave one environment, and definitions of distinct keys can change places. -/
theorem defineAll_canonical (history : List (Text × Value)) :
    (∀ key value, (empty.defineAll history).lookup key = .ok value ↔
      LastGives history key value) ∧
    (∀ key error, (empty.defineAll history).lookup key = .error error ↔
      (∀ d ∈ history, d.1 ≠ key) ∧ error = .unboundWord key) ∧
    (∀ key, (empty.defineAll history).contains key = true ↔
      ∃ value, (empty.defineAll history).lookup key = .ok value) ∧
    (empty.defineAll history).size = (history.map Prod.fst).toFinset.card ∧
    SortedBindings (empty.defineAll history).bindings ∧
    ((empty.defineAll history).bindings.map Prod.fst).Nodup ∧
    (∀ key value, (key, value) ∈ (empty.defineAll history).bindings ↔
      LastGives history key value) ∧
    (∀ other, empty.defineAll other = empty.defineAll history ↔
      ∀ key value, LastGives other key value ↔ LastGives history key value) ∧
    (∀ other, other.Perm history → (history.map Prod.fst).Nodup →
      empty.defineAll other = empty.defineAll history) := by
  refine ⟨?_, ?_, ?_, size_defineAll_empty history, sorted _, nodup_keys _, ?_, ?_, ?_⟩
  · intro key value
    rw [lookup_eq_ok_iff, find?_defineAll_empty]
  · intro key error
    rw [lookup_eq_error_iff, find?_defineAll_empty_eq_none]
  · intro key
    rw [contains, Option.isSome_iff_exists]
    simp only [lookup_eq_ok_iff]
  · intro key value
    rw [mem_bindings, find?_defineAll_empty]
  · intro other
    exact defineAll_empty_eq_iff
  · intro other hperm hnodup
    have hnodup' : (other.map Prod.fst).Nodup := (hperm.map Prod.fst).nodup_iff.mpr hnodup
    refine defineAll_empty_eq_iff.mpr fun key value => ?_
    rw [lastGives_iff_mem hnodup', lastGives_iff_mem hnodup, hperm.mem_iff]

/-- A definition that is made over, and two that change places, one of them of the empty key. -/
theorem defineAll_canonical_made_over :
    empty.defineAll [([0x61], .string []), ([], .string [0]), ([0x61], .word [])]
      = empty.defineAll [([], .string [0]), ([0x61], .word [])] ∧
    empty.defineAll [([0x61], .word []), ([], .string [0])]
      = empty.defineAll [([], .string [0]), ([0x61], .word [])] := by
  obtain ⟨-, -, -, -, -, -, -, hsame, hperm⟩ :=
    defineAll_canonical [([], .string [0]), ([0x61], .word [])]
  refine ⟨(hsame _).mpr fun key value => ?_, hperm _ (.swap _ _ _) (by simp)⟩
  -- the first definition of the longer history is not the last one of its key
  rw [lastGives_cons]
  constructor
  · rintro (h | ⟨hrest, hfirst⟩)
    · exact h
    · cases hfirst
      exact absurd rfl (hrest ([0x61], .word []) (by simp))
  · exact Or.inl

end Environment
end WordMachine
