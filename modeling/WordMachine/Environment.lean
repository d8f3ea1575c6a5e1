import WordMachine.Value

/-!
# Environments

An environment binds words to values. Its bindings are kept in increasing order of their keys, byte
by byte, with no key twice, and this is part of the type.

**So an environment is its look-ups**: two environments that bind the same words to the same values
are equal (`Environment.ext_find?`), however they were built.
-/

set_option autoImplicit false

namespace WordMachine

/-- Bindings in strictly increasing order of their keys. -/
def SortedBindings (bindings : List (Text × Value)) : Prop :=
  bindings.Pairwise fun a b => a.1 < b.1

/-- A finite map from words to values. -/
structure Environment where
  bindings : List (Text × Value)
  sorted : SortedBindings bindings

/-- Puts a binding in its place, over a former one of the same key. -/
def insertBinding (key : Text) (value : Value) : List (Text × Value) → List (Text × Value)
  | [] => [(key, value)]
  | entry :: rest =>
    if key < entry.1 then (key, value) :: entry :: rest
    else if key = entry.1 then (key, value) :: rest
    else entry :: insertBinding key value rest

/-- The value of a key among bindings. -/
def findBinding? (key : Text) : List (Text × Value) → Option Value
  | [] => none
  | entry :: rest => if key = entry.1 then some entry.2 else findBinding? key rest

/-! ## The order of keys -/

theorem key_lt_trans {a b c : Text} (hab : a < b) (hbc : b < c) : a < c := List.lt_trans hab hbc

theorem key_ne_of_lt {a b : Text} (h : a < b) : a ≠ b := fun he => List.lt_irrefl b (he ▸ h)

theorem key_lt_of_not {a b : Text} (hlt : ¬a < b) (hne : a ≠ b) : b < a :=
  (List.le_iff_lt_or_eq.1 (List.not_lt.1 hlt)).resolve_right fun h => hne h.symm

/-! ## Insertion -/

theorem mem_insertBinding {key : Text} {value : Value} {bindings : List (Text × Value)}
    {entry : Text × Value} (h : entry ∈ insertBinding key value bindings) :
    entry = (key, value) ∨ entry ∈ bindings := by
  induction bindings with
  | nil => exact .inl (List.mem_singleton.1 h)
  | cons first rest ih =>
    unfold insertBinding at h
    split at h
    · exact List.mem_cons.1 h
    · split at h
      · exact (List.mem_cons.1 h).imp_right (List.mem_cons_of_mem _)
      · rcases List.mem_cons.1 h with h | h
        · exact .inr (h ▸ List.mem_cons_self)
        · exact (ih h).imp_right (List.mem_cons_of_mem _)

theorem sorted_insertBinding (key : Text) (value : Value) {bindings : List (Text × Value)}
    (h : SortedBindings bindings) : SortedBindings (insertBinding key value bindings) := by
  induction bindings with
  | nil => simp [insertBinding, SortedBindings]
  | cons first rest ih =>
    obtain ⟨hfirst, hrest⟩ := List.pairwise_cons.1 h
    unfold insertBinding
    split
    · rename_i hlt
      refine List.pairwise_cons.2 ⟨fun entry hentry => ?_, h⟩
      rcases List.mem_cons.1 hentry with rfl | hentry
      · exact hlt
      · exact key_lt_trans hlt (hfirst entry hentry)
    · split
      · rename_i heq
        exact List.pairwise_cons.2 ⟨fun entry hentry => heq ▸ hfirst entry hentry, hrest⟩
      · rename_i hnot hne
        refine List.pairwise_cons.2 ⟨fun entry hentry => ?_, ih hrest⟩
        rcases mem_insertBinding hentry with rfl | hentry
        · exact key_lt_of_not hnot hne
        · exact hfirst entry hentry

theorem findBinding?_insertBinding (key : Text) (value : Value) (bindings : List (Text × Value))
    (other : Text) :
    findBinding? other (insertBinding key value bindings)
      = if other = key then some value else findBinding? other bindings := by
  induction bindings with
  | nil => rfl
  | cons first rest ih =>
    unfold insertBinding
    split
    · rfl
    · split
      · rename_i heq
        by_cases h : other = key <;> simp [findBinding?, ← heq, h]
      · rename_i hne
        rw [findBinding?, findBinding?, ih]
        by_cases h : other = first.1
        · have : other ≠ key := fun hk => hne (hk.symm.trans h)
          simp [h ▸ this, h]
        · simp [h]

/-! ## The environment -/

namespace Environment

/-- The environment that binds nothing. -/
def empty : Environment := ⟨[], List.Pairwise.nil⟩

/-- Binds a word, over any former binding of it. -/
def define (e : Environment) (key : Text) (value : Value) : Environment :=
  ⟨insertBinding key value e.bindings, sorted_insertBinding key value e.sorted⟩

/-- The value that a word is bound to. -/
def find? (e : Environment) (key : Text) : Option Value := findBinding? key e.bindings

/-- The value that a word is bound to, or the error that it is not. -/
def lookup (e : Environment) (symbol : Text) : Except Error Value :=
  match e.find? symbol with
  | some v => .ok v
  | none => .error (.unboundWord symbol)

/-- Whether a word is bound. -/
def contains (e : Environment) (key : Text) : Bool := (e.find? key).isSome

/-- How many words are bound. -/
def size (e : Environment) : Nat := e.bindings.length

@[simp] theorem find?_empty (key : Text) : empty.find? key = none := rfl

@[simp] theorem find?_define (e : Environment) (key : Text) (value : Value) (other : Text) :
    (e.define key value).find? other = if other = key then some value else e.find? other :=
  findBinding?_insertBinding key value e.bindings other

theorem lookup_eq_ok_iff {e : Environment} {symbol : Text} {v : Value} :
    e.lookup symbol = .ok v ↔ e.find? symbol = some v := by
  unfold lookup
  cases e.find? symbol <;> simp

theorem lookup_eq_error_iff {e : Environment} {symbol : Text} {error : Error} :
    e.lookup symbol = .error error ↔ e.find? symbol = none ∧ error = .unboundWord symbol := by
  unfold lookup
  cases e.find? symbol <;> simp [eq_comm]

/-- Look-ups agree with what is found. -/
theorem lookup_eq_lookup_iff {a b : Environment} {symbol : Text} :
    a.lookup symbol = b.lookup symbol ↔ a.find? symbol = b.find? symbol := by
  constructor
  · intro h
    cases hb : b.find? symbol with
    | none => exact (lookup_eq_error_iff.1 (h.trans (lookup_eq_error_iff.2 ⟨hb, rfl⟩))).1
    | some v => exact lookup_eq_ok_iff.1 (h.trans (lookup_eq_ok_iff.2 hb))
  · intro h
    rw [lookup, lookup, h]

theorem mem_of_findBinding? {key : Text} {value : Value} {bindings : List (Text × Value)}
    (h : findBinding? key bindings = some value) : (key, value) ∈ bindings := by
  induction bindings with
  | nil => simp [findBinding?] at h
  | cons first rest ih =>
    unfold findBinding? at h
    split at h
    · rename_i heq
      rw [heq, ← Option.some.inj h]
      exact List.mem_cons_self
    · exact List.mem_cons_of_mem _ (ih h)

theorem findBinding?_eq_none {key : Text} {bindings : List (Text × Value)}
    (h : ∀ entry ∈ bindings, key < entry.1) : findBinding? key bindings = none := by
  cases hf : findBinding? key bindings with
  | none => rfl
  | some value => exact absurd rfl (key_ne_of_lt (h _ (mem_of_findBinding? hf)))

/-- Sorted bindings are determined by their look-ups. -/
theorem bindings_ext {a b : List (Text × Value)} (ha : SortedBindings a) (hb : SortedBindings b)
    (h : ∀ key, findBinding? key a = findBinding? key b) : a = b := by
  induction a generalizing b with
  | nil =>
    cases b with
    | nil => rfl
    | cons y ys => simpa [findBinding?] using h y.1
  | cons x xs ih =>
    obtain ⟨hx, hxs⟩ := List.pairwise_cons.1 ha
    cases b with
    | nil => simpa [findBinding?] using h x.1
    | cons y ys =>
      obtain ⟨hy, hys⟩ := List.pairwise_cons.1 hb
      have hkey : x.1 = y.1 := by
        by_cases hlt : x.1 < y.1
        · have hnone : findBinding? x.1 (y :: ys) = none := by
            refine findBinding?_eq_none fun entry hentry => ?_
            rcases List.mem_cons.1 hentry with rfl | hentry
            · exact hlt
            · exact key_lt_trans hlt (hy entry hentry)
          have := h x.1
          rw [hnone] at this
          simp [findBinding?] at this
        · by_cases hne : x.1 = y.1
          · exact hne
          · have hgt := key_lt_of_not hlt hne
            have hnone : findBinding? y.1 (x :: xs) = none := by
              refine findBinding?_eq_none fun entry hentry => ?_
              rcases List.mem_cons.1 hentry with rfl | hentry
              · exact hgt
              · exact key_lt_trans hgt (hx entry hentry)
            have := h y.1
            rw [hnone] at this
            simp [findBinding?] at this
      have hvalue : x.2 = y.2 := by simpa [findBinding?, hkey] using h x.1
      have htail : xs = ys := by
        refine ih hxs hys fun key => ?_
        by_cases hk : key = x.1
        · rw [hk, findBinding?_eq_none hx, hkey, findBinding?_eq_none hy]
        · have := h key
          simpa [findBinding?, hk, hkey ▸ hk] using this
      rw [htail, Prod.ext hkey hvalue]

/-- Environments with the same look-ups are equal. -/
theorem ext_find? {a b : Environment} (h : ∀ key, a.find? key = b.find? key) : a = b := by
  obtain ⟨as, ha⟩ := a
  obtain ⟨bs, hb⟩ := b
  have : as = bs := bindings_ext ha hb h
  subst this
  rfl

end Environment
end WordMachine
